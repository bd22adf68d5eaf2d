import NgramIndex.Compaction
import NgramIndex.PartitionIndependence
import NgramIndex.Resumable

/- The table function ngram_unpack_postings. It gives one row per posting and fills at
   most one output chunk per call, so it stops inside a decoded list and goes on from
   there. Its eight-column form checks every field that a segment row persists. -/
namespace NgramUnpackPostings
open AscendingLists NgramPostings NgramPackSegment NgramProbe NgramMaintenance Fallible ResumableOperators
open NgramStorage (standardVectorSize)
variable {Key : Type}

def nullInput : String := "ngram_unpack_postings: input must not contain NULLs"

/-- A row of the input, with none for NULL. The last five columns belong to the checked form. -/
structure InputRow (Key : Type) where
  gramKey : Option Key
  segmentNo : Option Int
  postings : Option (List UInt8)
  rowidCount : Option Int
  minRowid : Option Int
  maxRowid : Option Int
  generation : Option Int
  hwm : Option Int
  deriving DecidableEq, Repr

structure Descriptor where
  rowidCount : Int
  minRowid : Int
  maxRowid : Int
  generation : Int
  hwm : Int
  deriving DecidableEq, Repr

/-- The values of a row without NULLs. -/
structure Columns (Key : Type) where
  gramKey : Key
  segmentNo : Int
  postings : List UInt8
  descriptor : Option Descriptor
  deriving DecidableEq, Repr

structure OutputRow (Key : Type) where
  gramKey : Key
  segmentNo : Int
  rowid : Nat
  deriving DecidableEq, Repr

structure UnpackPostingsState where
  inputOffset : Nat
  rowids : List Nat
  rowidOffset : Nat
  rowDecoded : Bool
  deriving DecidableEq, Repr

def initLocal : UnpackPostingsState := ⟨0, [], 0, false⟩

def InputRow.descriptor (row : InputRow Key) : Option Descriptor := do
  let rowidCount ← row.rowidCount
  let minRowid ← row.minRowid
  let maxRowid ← row.maxRowid
  let generation ← row.generation
  let hwm ← row.hwm
  return ⟨rowidCount, minRowid, maxRowid, generation, hwm⟩

def InputRow.columns (checked : Bool) (row : InputRow Key) : Option (Columns Key) := do
  let gramKey ← row.gramKey
  let segmentNo ← row.segmentNo
  let postings ← row.postings
  if checked then
    let descriptor ← row.descriptor
    return ⟨gramKey, segmentNo, postings, some descriptor⟩
  else return ⟨gramKey, segmentNo, postings, none⟩

def checkDescriptor (segmentNo : Int) (d : Descriptor) (rowids : List Nat) : Except String Unit :=
  if rowids.any fun r => segmentNo < 0 ∨ ((r / segmentRows : Nat) : Int) ≠ segmentNo ∨ (r : Int) > d.hwm then
    .error outsideRange
  else if d.rowidCount ≤ 0 ∨ d.rowidCount.toNat ≠ rowids.length ∨ rowids = [] ∨ d.minRowid ≠ rowids.headD 0 ∨
      d.maxRowid ≠ rowids.getLastD 0 ∨ d.generation < 0 then .error descriptorDisagrees
  else .ok ()

def decodeRow (row : Columns Key) : Except String (List Nat) := do
  let rowids ← decodePostings row.postings
  match row.descriptor with
  | none => return rowids
  | some d => do
      checkDescriptor row.segmentNo d rowids
      return rowids

/-- The inner loop. It reports whether the output was full before the list was over. -/
def emitRowids (row : Columns Key) (rowids : List Nat) (rowidOffset : Nat) (out : List (OutputRow Key)) :
    Bool × Nat × List (OutputRow Key) :=
  if more : rowidOffset < rowids.length then
    if standardVectorSize ≤ out.length then (true, rowidOffset, out)
    else emitRowids row rowids (rowidOffset + 1) (out ++ [⟨row.gramKey, row.segmentNo, rowids[rowidOffset]⟩])
  else (false, rowidOffset, out)
termination_by rowids.length - rowidOffset

def loadRow (row : Columns Key) (state : UnpackPostingsState) : Except String UnpackPostingsState :=
  if state.rowDecoded then .ok state
  else do
    let rowids ← decodeRow row
    return { state with rowids := rowids, rowidOffset := 0, rowDecoded := true }

/-- The outer loop, with the rows that this call has put out. -/
def unpackFrom (checked : Bool) (input : List (InputRow Key)) (state : UnpackPostingsState)
    (out : List (OutputRow Key)) : Except String (Answer × List (OutputRow Key) × UnpackPostingsState) :=
  if more : state.inputOffset < input.length then
    match input[state.inputOffset].columns checked with
    | none => .error nullInput
    | some row => do
        let loaded ← loadRow row state
        match emitRowids row loaded.rowids loaded.rowidOffset out with
        | (true, rowidOffset, out) => return (.haveMoreOutput, out, { loaded with rowidOffset := rowidOffset })
        | (false, rowidOffset, out) =>
            unpackFrom checked input ⟨state.inputOffset + 1, loaded.rowids, rowidOffset, false⟩ out
  else .ok (.needMoreInput, out, { state with inputOffset := 0 })
termination_by input.length - state.inputOffset

def unpackPostingsFunction (checked : Bool) (input : List (InputRow Key)) :
    Call UnpackPostingsState (OutputRow Key) String := fun state => unpackFrom checked input state []

def outputRows (row : Columns Key) (rowids : List Nat) : List (OutputRow Key) :=
  rowids.map fun r => ⟨row.gramKey, row.segmentNo, r⟩

def unpackedRow (checked : Bool) (row : InputRow Key) : Except String (List (OutputRow Key)) :=
  match row.columns checked with
  | none => .error nullInput
  | some c => do
      let rowids ← decodeRow c
      return outputRows c rowids

def remainderOf (checked : Bool) : List (InputRow Key) → Remainder (OutputRow Key) String
  | [] => ⟨[], none⟩
  | row :: rows =>
      match unpackedRow checked row with
      | .error e => ⟨[], some e⟩
      | .ok out => ⟨out ++ (remainderOf checked rows).items, (remainderOf checked rows).raises⟩

/-- What a state has left of a chunk: the tail of the decoded list, then the rows behind it. -/
def left (checked : Bool) (input : List (InputRow Key)) (state : UnpackPostingsState) :
    Remainder (OutputRow Key) String :=
  if state.rowDecoded then
    match input.drop state.inputOffset with
    | [] => ⟨[], none⟩
    | row :: rows =>
        match row.columns checked with
        | none => ⟨[], some nullInput⟩
        | some c => ⟨outputRows c (state.rowids.drop state.rowidOffset) ++ (remainderOf checked rows).items,
            (remainderOf checked rows).raises⟩
  else remainderOf checked (input.drop state.inputOffset)

def Fresh (state : UnpackPostingsState) : Prop := state.inputOffset = 0 ∧ state.rowDecoded = false

def Stands (input : List (InputRow Key)) (state : UnpackPostingsState) : Prop :=
  state.rowDecoded = true → state.inputOffset < input.length

section Calls
variable {checked : Bool} {input : List (InputRow Key)}

theorem emitRowids_spec {row : Columns Key} {rowids : List Nat} {rowidOffset : Nat} {out : List (OutputRow Key)}
    (room : out.length ≤ standardVectorSize) {full : Bool} {stop : Nat} {filled : List (OutputRow Key)}
    (ran : emitRowids row rowids rowidOffset out = (full, stop, filled)) :
    filled.length ≤ standardVectorSize ∧ ∃ given, filled = out ++ given ∧
      (full = true → filled.length = standardVectorSize ∧
        outputRows row (rowids.drop rowidOffset) = given ++ outputRows row (rowids.drop stop)) ∧
      (full = false → given = outputRows row (rowids.drop rowidOffset)) := by
  induction remaining : rowids.length - rowidOffset generalizing rowidOffset out with
  | zero =>
    rw [emitRowids, dif_neg (by omega)] at ran
    obtain ⟨rfl, rfl, rfl⟩ := ran
    refine ⟨room, [], (List.append_nil _).symm, nofun, fun _ => ?_⟩
    rw [List.drop_eq_nil_of_le (by omega)]
    rfl
  | succ remaining ih =>
    have more : rowidOffset < rowids.length := by omega
    rw [emitRowids, dif_pos more] at ran
    by_cases is_full : standardVectorSize ≤ out.length
    · rw [if_pos is_full] at ran
      obtain ⟨rfl, rfl, rfl⟩ := ran
      exact ⟨room, [], (List.append_nil _).symm, fun _ => ⟨Nat.le_antisymm room is_full, rfl⟩, nofun⟩
    · rw [if_neg is_full] at ran
      obtain ⟨short, given, rfl, stopped, ended⟩ := ih (by simp; omega) ran (by omega)
      refine ⟨short, ⟨row.gramKey, row.segmentNo, rowids[rowidOffset]⟩ :: given, by simp, ?_, ?_⟩
      · intro is_full
        obtain ⟨filled, split⟩ := stopped is_full
        refine ⟨filled, ?_⟩
        rw [List.drop_eq_getElem_cons more, outputRows, List.map_cons]
        exact congrArg (List.cons _) split
      · intro listed_all
        rw [ended listed_all, List.drop_eq_getElem_cons more]
        rfl

/-- What a call tells the host, next to what the state before it had left. -/
def Tells (checked : Bool) (input : List (InputRow Key)) (state : UnpackPostingsState) (out : List (OutputRow Key)) :
    Except String (Answer × List (OutputRow Key) × UnpackPostingsState) → Prop
  | .error e => (left checked input state).raises = some e
  | .ok (.needMoreInput, filled, t) => filled.length ≤ standardVectorSize ∧
      filled = out ++ (left checked input state).items ∧ (left checked input state).raises = none ∧ Fresh t
  | .ok (.haveMoreOutput, filled, t) => filled.length = standardVectorSize ∧ Stands input t ∧
      ∃ given, filled = out ++ given ∧ (left checked input state).items = given ++ (left checked input t).items ∧
        (left checked input state).raises = (left checked input t).raises

/-- What is left at a row, once its list is decoded. -/
def leftAt (checked : Bool) (row : Columns Key) (rows : List (InputRow Key)) (rowids : List Nat) :
    Remainder (OutputRow Key) String :=
  ⟨outputRows row rowids ++ (remainderOf checked rows).items, (remainderOf checked rows).raises⟩

theorem left_decoded {state : UnpackPostingsState} (more : state.inputOffset < input.length) {c : Columns Key}
    (valid : input[state.inputOffset].columns checked = some c) (decoded : state.rowDecoded = true) :
    left checked input state =
      leftAt checked c (input.drop (state.inputOffset + 1)) (state.rowids.drop state.rowidOffset) := by
  rw [left, if_pos decoded, List.drop_eq_getElem_cons more]
  simp only [valid]
  rfl

theorem left_waiting {state : UnpackPostingsState} (more : state.inputOffset < input.length) {c : Columns Key}
    (valid : input[state.inputOffset].columns checked = some c) (waiting : state.rowDecoded = false) :
    (∀ e, decodeRow c = .error e → (left checked input state).raises = some e) ∧
      ∀ rowids, decodeRow c = .ok rowids →
        left checked input state = leftAt checked c (input.drop (state.inputOffset + 1)) rowids := by
  have unpacked : unpackedRow checked input[state.inputOffset] =
      decodeRow c >>= fun rowids => .ok (outputRows c rowids) := by
    rw [unpackedRow, valid]
    rfl
  rw [left, waiting, if_neg Bool.false_ne_true, List.drop_eq_getElem_cons more, remainderOf, unpacked]
  refine ⟨fun e raised => ?_, fun rowids decoded => ?_⟩
  · rw [raised]
    rfl
  · rw [decoded]
    rfl

theorem left_null {state : UnpackPostingsState} (more : state.inputOffset < input.length)
    (null : input[state.inputOffset].columns checked = none) :
    (left checked input state).raises = some nullInput := by
  have unpacked : unpackedRow checked input[state.inputOffset] = .error nullInput := by rw [unpackedRow, null]
  rw [left, List.drop_eq_getElem_cons more]
  split
  · simp only [null]
  · rw [remainderOf, unpacked]

theorem loadRow_error {state : UnpackPostingsState} (more : state.inputOffset < input.length) {c : Columns Key}
    (valid : input[state.inputOffset].columns checked = some c) {e : String}
    (raised : loadRow c state = .error e) : (left checked input state).raises = some e := by
  unfold loadRow at raised
  cases waiting : state.rowDecoded with
  | true =>
    rw [waiting] at raised
    cases raised
  | false =>
    rw [waiting, if_neg Bool.false_ne_true] at raised
    cases decoded : decodeRow c with
    | error e' =>
      rw [decoded] at raised
      cases raised
      exact (left_waiting more valid waiting).1 e decoded
    | ok rowids =>
      rw [decoded] at raised
      cases raised

theorem loadRow_ok {state loaded : UnpackPostingsState} (more : state.inputOffset < input.length) {c : Columns Key}
    (valid : input[state.inputOffset].columns checked = some c) (run : loadRow c state = .ok loaded) :
    loaded.inputOffset = state.inputOffset ∧ loaded.rowDecoded = true ∧ left checked input state =
      leftAt checked c (input.drop (state.inputOffset + 1)) (loaded.rowids.drop loaded.rowidOffset) := by
  unfold loadRow at run
  cases waiting : state.rowDecoded with
  | true =>
    rw [waiting] at run
    cases run
    exact ⟨rfl, waiting, left_decoded more valid waiting⟩
  | false =>
    rw [waiting, if_neg Bool.false_ne_true] at run
    obtain ⟨rowids, decoded, run⟩ := bind_ok run
    cases run
    exact ⟨rfl, rfl, (left_waiting more valid waiting).2 rowids decoded⟩

theorem unpackFrom_tells {state : UnpackPostingsState} {out : List (OutputRow Key)} (stands : Stands input state)
    (room : out.length ≤ standardVectorSize) :
    Tells checked input state out (unpackFrom checked input state out) := by
  induction remaining : input.length - state.inputOffset generalizing state out with
  | zero =>
    have waiting : state.rowDecoded = false := eq_false_of_ne_true fun decoded => by
      have inside := stands decoded
      omega
    rw [unpackFrom, dif_neg (by omega)]
    have nothing : left checked input state = ⟨[], none⟩ := by
      rw [left, waiting, if_neg Bool.false_ne_true, List.drop_eq_nil_of_le (by omega)]
      rfl
    refine ⟨room, ?_, ?_, rfl, waiting⟩
    · rw [nothing, List.append_nil]
    · rw [nothing]
  | succ remaining ih =>
    have more : state.inputOffset < input.length := by omega
    rw [unpackFrom, dif_pos more]
    cases valid : input[state.inputOffset].columns checked with
    | none => exact left_null more valid
    | some c =>
      simp only
      cases run : loadRow c state with
      | error e => exact loadRow_error more valid run
      | ok loaded =>
        obtain ⟨same_row, decoded, before⟩ := loadRow_ok more valid run
        rw [bind_of_ok rfl]
        rcases emitted : emitRowids c loaded.rowids loaded.rowidOffset out with ⟨full, stop, filled⟩
        obtain ⟨short, given, rfl, stopped, ended⟩ := emitRowids_spec room emitted
        cases full with
        | true =>
          obtain ⟨is_full, split⟩ := stopped rfl
          have inside : loaded.inputOffset < input.length := by omega
          have valid' : input[loaded.inputOffset].columns checked = some c := by simpa only [same_row] using valid
          have after := @left_decoded _ checked input { loaded with rowidOffset := stop } inside c valid' decoded
          refine ⟨is_full, fun _ => inside, given, rfl, ?_, ?_⟩
          · rw [before, after, leftAt, leftAt, split, List.append_assoc, same_row]
          · rw [before, after, leftAt, leftAt, same_row]
        | false =>
          obtain rfl := ended rfl
          have next := @ih ⟨state.inputOffset + 1, loaded.rowids, stop, false⟩ _ nofun short (by simp; omega)
          have behind : left checked input ⟨state.inputOffset + 1, loaded.rowids, stop, false⟩ =
              remainderOf checked (input.drop (state.inputOffset + 1)) := rfl
          simp only
          cases answer : unpackFrom checked input ⟨state.inputOffset + 1, loaded.rowids, stop, false⟩
              (out ++ outputRows c (loaded.rowids.drop loaded.rowidOffset)) with
          | error e =>
            rw [answer, Tells, behind] at next
            rw [Tells, before]
            exact next
          | ok told =>
            obtain ⟨kind, filled, t⟩ := told
            rw [answer] at next
            cases kind with
            | needMoreInput =>
              obtain ⟨fits, whole, calm, ready⟩ := next
              rw [behind] at whole calm
              refine ⟨fits, ?_, ?_, ready⟩
              · rw [before, whole, leftAt, List.append_assoc]
              · rw [before]
                exact calm
            | haveMoreOutput =>
              obtain ⟨is_full, inside, given, rfl, split, same⟩ := next
              rw [behind] at split same
              refine ⟨is_full, inside, _, List.append_assoc _ _ _, ?_, ?_⟩
              · rw [before, leftAt, split, List.append_assoc]
              · rw [before]
                exact same

theorem unpack_gives : Gives standardVectorSize (Stands input) (left checked input) Fresh
    (unpackPostingsFunction checked input) where
  raises := by
    intro s e stands raised
    have told := @unpackFrom_tells _ checked input s [] stands (Nat.zero_le _)
    rw [show unpackFrom checked input s [] = .error e from raised] at told
    exact told
  ends := by
    intro s out t stands ran
    have told := @unpackFrom_tells _ checked input s [] stands (Nat.zero_le _)
    rw [show unpackFrom checked input s [] = .ok (.needMoreInput, out, t) from ran] at told
    obtain ⟨short, rfl, calm, ready⟩ := told
    refine ⟨short, ?_, ready⟩
    rw [List.nil_append, ← calm]
  stops := by
    intro s out t stands ran
    have told := @unpackFrom_tells _ checked input s [] stands (Nat.zero_le _)
    rw [show unpackFrom checked input s [] = .ok (.haveMoreOutput, out, t) from ran] at told
    obtain ⟨is_full, inside, given, rfl, split, same⟩ := told
    exact ⟨is_full, inside, split, same⟩

theorem fresh_starts {state : UnpackPostingsState} (ready : Fresh state) :
    Stands input state ∧ left checked input state = remainderOf checked input := by
  obtain ⟨first, waiting⟩ := ready
  refine ⟨fun decoded => ?_, ?_⟩
  · rw [waiting] at decoded
    cases decoded
  · rw [left, waiting, if_neg Bool.false_ne_true, first, List.drop_zero]

end Calls

def unpackedRows (checked : Bool) (rows : List (InputRow Key)) : Except String (List (OutputRow Key)) := do
  let lists ← rows.mapM (unpackedRow checked)
  return lists.flatten

section Flattening
variable {checked : Bool}

theorem unpackedRows_nil : unpackedRows checked ([] : List (InputRow Key)) = .ok [] := rfl

theorem unpackedRows_cons (row : InputRow Key) (rows : List (InputRow Key)) :
    unpackedRows checked (row :: rows) = (do
      let out ← unpackedRow checked row
      let others ← unpackedRows checked rows
      return out ++ others) := by
  rw [unpackedRows, List.mapM_cons, unpackedRows]
  cases unpackedRow checked row with
  | error e => rfl
  | ok out =>
    cases rows.mapM (unpackedRow checked) with
    | error e => rfl
    | ok lists => rfl

theorem remainderOf_unpacked (rows : List (InputRow Key)) :
    (∀ out, unpackedRows checked rows = .ok out ↔ remainderOf checked rows = ⟨out, none⟩) ∧
      ∀ e, unpackedRows checked rows = .error e ↔ (remainderOf checked rows).raises = some e := by
  induction rows with
  | nil =>
    rw [unpackedRows_nil, remainderOf]
    exact ⟨fun out => ⟨fun run => by cases run; rfl, fun same => by cases same; rfl⟩, fun e => ⟨nofun, nofun⟩⟩
  | cons row rows ih =>
    rw [unpackedRows_cons, remainderOf]
    cases unpackedRow checked row with
    | error e => exact ⟨fun out => ⟨nofun, nofun⟩, fun f => ⟨fun run => by cases run; rfl, fun same => by cases same; rfl⟩⟩
    | ok out =>
      obtain ⟨well, badly⟩ := ih
      cases rest : unpackedRows checked rows with
      | error e =>
        have raises := (badly e).mp rest
        refine ⟨fun all => ⟨nofun, fun same => ?_⟩, fun f => ?_⟩
        · rw [raises] at same
          cases same
        · simp only [raises]
          exact ⟨fun run => by cases run; rfl, fun same => by cases same; rfl⟩
      | ok others =>
        have same := (well others).mp rest
        simp only [same]
        exact ⟨fun all => ⟨fun run => by cases run; rfl, fun same => by cases same; rfl⟩, fun e => ⟨nofun, nofun⟩⟩

theorem remainderOf_front (rows : List (InputRow Key)) :
    ∃ good, good <+: rows ∧ unpackedRows checked good = .ok (remainderOf checked rows).items := by
  induction rows with
  | nil => exact ⟨[], List.prefix_refl [], rfl⟩
  | cons row rows ih =>
    rw [remainderOf]
    cases first : unpackedRow checked row with
    | error e => exact ⟨[], List.nil_prefix, rfl⟩
    | ok out =>
      obtain ⟨good, front, flat⟩ := ih
      refine ⟨row :: good, List.cons_prefix_cons.mpr ⟨rfl, front⟩, ?_⟩
      rw [unpackedRows_cons, first, bind_of_ok rfl, flat]
      rfl

theorem unpackedRows_append {front back : List (InputRow Key)} {out : List (OutputRow Key)}
    (run : unpackedRows checked front = .ok out) :
    unpackedRows checked (front ++ back) = (do
      let others ← unpackedRows checked back
      return out ++ others) := by
  induction front generalizing out with
  | nil =>
    cases run
    rw [List.nil_append]
    cases unpackedRows checked back with
    | error e => rfl
    | ok others => rfl
  | cons row front ih =>
    rw [unpackedRows_cons] at run
    obtain ⟨first, here, run⟩ := bind_ok run
    obtain ⟨others, behind, run⟩ := bind_ok run
    cases run
    rw [List.cons_append, unpackedRows_cons, here, bind_of_ok rfl, ih behind]
    cases unpackedRows checked back with
    | error e => rfl
    | ok rest => exact congrArg Except.ok (List.append_assoc first others rest).symm

/-- Chunks that were put out one by one are put out together. -/
theorem unpackedRows_chunks {chunks : List (List (InputRow Key))} {outs : List (List (List (OutputRow Key)))}
    (each : List.Forall₂ (fun chunk out => (remainderOf checked chunk).raises = none ∧
      out.flatten = (remainderOf checked chunk).items) chunks outs) :
    List.Forall₂ (fun chunk out => unpackedRows checked chunk = .ok out.flatten) chunks outs ∧
      unpackedRows checked chunks.flatten = .ok outs.flatten.flatten := by
  induction each with
  | nil => exact ⟨.nil, rfl⟩
  | @cons chunk out chunks outs first _ ih =>
    have here : unpackedRows checked chunk = .ok out.flatten := by
      apply ((remainderOf_unpacked chunk).1 _).mpr
      rw [first.2, ← first.1]
    refine ⟨.cons here ih.1, ?_⟩
    rw [List.flatten_cons, unpackedRows_append here, ih.2, List.flatten_cons, List.flatten_append]
    rfl

theorem unpackedRows_raised {front : List (InputRow Key)} {e : String} (run : unpackedRows checked front = .error e)
    (back : List (InputRow Key)) : unpackedRows checked (front ++ back) = .error e := by
  induction front with
  | nil => cases run
  | cons row front ih =>
    rw [List.cons_append, unpackedRows_cons]
    rw [unpackedRows_cons] at run
    cases first : unpackedRow checked row with
    | error f =>
      rw [first] at run
      exact run
    | ok out =>
      rw [first, bind_of_ok rfl] at run
      cases rest : unpackedRows checked front with
      | error f =>
        rw [rest] at run
        cases run
        rw [bind_of_ok rfl, ih rest]
        rfl
      | ok others =>
        rw [rest] at run
        cases run

/-- What a run over chunks has put out, read as rows. -/
theorem drained_rows {chunks : List (List (InputRow Key))} {outs : List (List (List (OutputRow Key)))}
    {result : Except String UnpackPostingsState}
    (drained : AllDrained standardVectorSize (remainderOf checked) Fresh chunks outs result) :
    (∃ t, result = .ok t ∧ unpackedRows checked chunks.flatten = .ok outs.flatten.flatten ∧
        List.Forall₂ (fun chunk out => unpackedRows checked chunk = .ok out.flatten) chunks outs) ∨
      ∃ e good rows, result = .error e ∧ unpackedRows checked chunks.flatten = .error e ∧
        good <+: chunks.flatten ∧ unpackedRows checked good = .ok rows ∧ outs.flatten.flatten <+: rows := by
  cases result with
  | ok t =>
    obtain ⟨each, flat⟩ := unpackedRows_chunks (allDrained_ok drained rfl).2
    exact .inl ⟨t, rfl, flat, each⟩
  | error e =>
    obtain ⟨done, bad, rest, front, last, rfl, rfl, before, raised, given⟩ := allDrained_error drained rfl
    have flat := (unpackedRows_chunks before).2
    obtain ⟨good, in_bad, items⟩ := @remainderOf_front _ checked bad
    refine .inr ⟨e, done.flatten ++ good, front.flatten.flatten ++ (remainderOf checked bad).items, rfl, ?_, ?_, ?_, ?_⟩
    · have ends := unpackedRows_raised (((remainderOf_unpacked bad).2 e).mpr raised) rest.flatten
      rw [List.flatten_append, List.flatten_cons, unpackedRows_append flat, ends]
      rfl
    · rw [List.flatten_append, List.flatten_cons]
      exact (List.prefix_append_right_inj _).mpr (in_bad.trans (List.prefix_append bad _))
    · rw [unpackedRows_append flat, items]
      rfl
    · rw [List.flatten_append, List.flatten_append, List.flatten_singleton]
      exact (List.prefix_append_right_inj _).mpr given

end Flattening

section Checks
variable {row : InputRow Key}

def HoldsNull (row : InputRow Key) : Prop :=
  row.gramKey = none ∨ row.segmentNo = none ∨ row.postings = none ∨ row.rowidCount = none ∨
    row.minRowid = none ∨ row.maxRowid = none ∨ row.generation = none ∨ row.hwm = none

/-- What is wrong with a row without NULLs: its blob, a posting, or a field that does not describe the blob. -/
def Faulty (segmentNo : Int) (blob : List UInt8) (d : Descriptor) : Prop :=
  (∃ e, decodePostings blob = .error e) ∨ ∃ rowids, decodePostings blob = .ok rowids ∧
    (rowids = [] ∨ (∃ r ∈ rowids, ((r / segmentRows : Nat) : Int) ≠ segmentNo ∨ d.hwm < r) ∨ d.generation < 0 ∨
      d.rowidCount ≠ rowids.length ∨ d.minRowid ≠ rowids.headD 0 ∨ d.maxRowid ≠ rowids.getLastD 0)

def Rejected (row : InputRow Key) : Prop :=
  HoldsNull row ∨ ∃ key segmentNo blob d, row.columns true = some ⟨key, segmentNo, blob, some d⟩ ∧
    Faulty segmentNo blob d

theorem bind_none {α β : Type} {o : Option α} {f : α → Option β} {rest : Prop} (later : ∀ a, f a = none ↔ rest) :
    (o >>= f) = none ↔ o = none ∨ rest := by
  cases o with
  | none => exact ⟨fun _ => .inl rfl, fun _ => rfl⟩
  | some a => exact (later a).trans ⟨.inr, fun either => either.resolve_left nofun⟩

theorem descriptor_none : row.descriptor = none ↔ row.rowidCount = none ∨ row.minRowid = none ∨
    row.maxRowid = none ∨ row.generation = none ∨ row.hwm = none := by
  refine bind_none fun _ => bind_none fun _ => bind_none fun _ => bind_none fun _ => ?_
  cases row.hwm with
  | none => exact ⟨fun _ => rfl, fun _ => rfl⟩
  | some hwm => exact ⟨nofun, nofun⟩

theorem columns_none : row.columns true = none ↔ HoldsNull row := by
  refine bind_none fun _ => bind_none fun _ => bind_none fun _ => ?_
  rw [← descriptor_none, if_pos rfl]
  cases row.descriptor with
  | none => exact ⟨fun _ => rfl, fun _ => rfl⟩
  | some d => exact ⟨nofun, nofun⟩

theorem columns_descriptor {c : Columns Key} (valid : row.columns true = some c) : ∃ d, c.descriptor = some d := by
  unfold InputRow.columns at valid
  simp only [Option.bind_eq_bind, Option.bind_eq_some_iff, if_true] at valid
  obtain ⟨_, _, _, _, _, _, d, _, same⟩ := valid
  cases same
  exact ⟨d, rfl⟩

theorem checkDescriptor_error {segmentNo : Int} {d : Descriptor} {rowids : List Nat} :
    (∃ e, checkDescriptor segmentNo d rowids = .error e) ↔
      rowids = [] ∨ (∃ r ∈ rowids, ((r / segmentRows : Nat) : Int) ≠ segmentNo ∨ d.hwm < r) ∨ d.generation < 0 ∨
        d.rowidCount ≠ rowids.length ∨ d.minRowid ≠ rowids.headD 0 ∨ d.maxRowid ≠ rowids.getLastD 0 := by
  have outside : (rowids.any fun r => segmentNo < 0 ∨ ((r / segmentRows : Nat) : Int) ≠ segmentNo ∨ (r : Int) > d.hwm) =
      true ↔ ∃ r ∈ rowids, ((r / segmentRows : Nat) : Int) ≠ segmentNo ∨ d.hwm < r := by
    simp only [List.any_eq_true, decide_eq_true_eq]
    constructor
    · rintro ⟨r, listed, negative | wrong⟩
      · exact ⟨r, listed, .inl (negative.trans_le (Int.natCast_nonneg _)).ne'⟩
      · exact ⟨r, listed, wrong⟩
    · rintro ⟨r, listed, wrong⟩
      exact ⟨r, listed, .inr wrong⟩
  have fields : d.rowidCount ≤ 0 ∨ d.rowidCount.toNat ≠ rowids.length ∨ rowids = [] ∨ d.minRowid ≠ rowids.headD 0 ∨
      d.maxRowid ≠ rowids.getLastD 0 ∨ d.generation < 0 ↔ rowids = [] ∨ d.generation < 0 ∨
        d.rowidCount ≠ rowids.length ∨ d.minRowid ≠ rowids.headD 0 ∨ d.maxRowid ≠ rowids.getLastD 0 := by
    rw [← List.length_eq_zero_iff]
    omega
  unfold checkDescriptor
  split
  · rename_i found
    exact ⟨fun _ => .inr (.inl (outside.mp found)), fun _ => ⟨_, rfl⟩⟩
  · rename_i absent
    rw [outside] at absent
    split
    · rename_i wrong
      exact ⟨fun _ => (fields.mp wrong).imp_right .inr, fun _ => ⟨_, rfl⟩⟩
    · rename_i right
      rw [fields] at right
      refine ⟨fun ⟨e, run⟩ => (nomatch run), ?_⟩
      rintro (empty | found | wrong)
      · exact absurd (.inl empty) right
      · exact absurd found absent
      · exact absurd (.inr wrong) right

/-- The checked form raises on the rows that are rejected. -/
theorem unpackedRow_rejected : (∃ e, unpackedRow true row = .error e) ↔ Rejected row := by
  cases valid : row.columns true with
  | none =>
    have null := columns_none.mp valid
    rw [unpackedRow, valid]
    exact ⟨fun _ => .inl null, fun _ => ⟨nullInput, rfl⟩⟩
  | some c =>
    have no_null : ¬ HoldsNull row := fun null => by
      rw [columns_none.mpr null] at valid
      cases valid
    obtain ⟨d, described⟩ := columns_descriptor valid
    obtain ⟨key, segmentNo, blob, _⟩ := c
    cases described
    have rejected : Rejected row ↔ Faulty segmentNo blob d := by
      unfold Rejected
      rw [valid]
      constructor
      · rintro (null | ⟨_, _, _, _, same, faulty⟩)
        · exact absurd null no_null
        · cases same
          exact faulty
      · exact fun faulty => .inr ⟨key, segmentNo, blob, d, rfl, faulty⟩
    rw [rejected, unpackedRow, valid, Faulty]
    simp only [decodeRow]
    cases decoded : decodePostings blob with
    | error e => exact ⟨fun _ => .inl ⟨e, rfl⟩, fun _ => ⟨e, rfl⟩⟩
    | ok rowids =>
      have raised := @checkDescriptor_error segmentNo d rowids
      cases checked : checkDescriptor segmentNo d rowids with
      | error e =>
        rw [checked] at raised
        exact ⟨fun _ => .inr ⟨rowids, rfl, raised.mp ⟨e, rfl⟩⟩, fun _ => ⟨e, by rw [bind_of_ok rfl, checked]; rfl⟩⟩
      | ok u =>
        rw [checked] at raised
        constructor
        · rintro ⟨e, run⟩
          rw [bind_of_ok rfl, checked] at run
          cases run
        · rintro (⟨e, run⟩ | ⟨_, same, wrong⟩)
          · cases run
          · cases same
            exact absurd (raised.mpr wrong) nofun

theorem unpackedRows_error {checked : Bool} {rows : List (InputRow Key)} :
    (∃ e, unpackedRows checked rows = .error e) ↔ ∃ row ∈ rows, ∃ e, unpackedRow checked row = .error e := by
  induction rows with
  | nil =>
    rw [unpackedRows_nil]
    exact ⟨nofun, fun ⟨_, listed, _⟩ => absurd listed List.not_mem_nil⟩
  | cons row rows ih =>
    rw [unpackedRows_cons, List.exists_mem_cons_iff, ← ih]
    cases unpackedRow checked row with
    | error e => exact ⟨fun _ => .inl ⟨e, rfl⟩, fun _ => ⟨e, rfl⟩⟩
    | ok out =>
      cases unpackedRows checked rows with
      | error e => exact ⟨fun _ => .inr ⟨e, rfl⟩, fun _ => ⟨e, rfl⟩⟩
      | ok others => exact ⟨nofun, nofun⟩

end Checks

section Compaction

/-- A row of the segments table under the mark of the index, as compaction reads it. -/
def segmentInput (hwm : Int) (row : SegmentRow Key) : InputRow Key :=
  ⟨some row.gramKey, some row.segmentNo, some row.postings, some row.rowidCount, some row.minRowid,
    some row.maxRowid, some row.generation, some hwm⟩

theorem unpackedRow_segment (hwm : Int) (row : SegmentRow Key) :
    unpackedRow true (segmentInput hwm row) =
      unpackRow hwm row >>= fun pairs => .ok (pairs.map fun pair => ⟨pair.1, row.segmentNo, pair.2⟩) := by
  have columns : (segmentInput hwm row).columns true = some ⟨row.gramKey, row.segmentNo, row.postings,
    some ⟨row.rowidCount, row.minRowid, row.maxRowid, row.generation, hwm⟩⟩ := rfl
  rw [unpackedRow, columns, unpackRow]
  simp only [decodeRow]
  cases decodePostings row.postings with
  | error e => rfl
  | ok rowids =>
    rw [bind_of_ok rfl, bind_of_ok rfl, checkDescriptor]
    split
    · rfl
    split
    · rfl
    · refine congrArg Except.ok ?_
      rw [List.map_map]
      rfl

/-- What compaction merges is what the function gives for the rows that it selects. -/
theorem unpackPostings_streamed (hwm : Int) (rows : List (SegmentRow Key)) :
    unpackPostings hwm rows = unpackedRows true (rows.map (segmentInput hwm)) >>= fun out =>
      .ok (out.map fun row => (row.gramKey, row.rowid)) := by
  induction rows with
  | nil => rfl
  | cons row rows ih =>
    have cons : unpackPostings hwm (row :: rows) = (do
        let pairs ← unpackRow hwm row
        let others ← unpackPostings hwm rows
        return pairs ++ others) := by
      rw [unpackPostings, List.mapM_cons, unpackPostings]
      cases unpackRow hwm row with
      | error e => rfl
      | ok pairs =>
        cases rows.mapM (unpackRow hwm) with
        | error e => rfl
        | ok lists => rfl
    rw [cons, ih, List.map_cons, unpackedRows_cons, unpackedRow_segment]
    cases unpackRow hwm row with
    | error e => rfl
    | ok pairs =>
      cases unpackedRows true (rows.map (segmentInput hwm)) with
      | error e => rfl
      | ok out =>
        refine congrArg Except.ok ?_
        rw [List.map_append, List.map_map]
        exact congrArg (· ++ _) (List.map_id pairs).symm

end Compaction

section Packing

/-- The states of a group pack to this row. -/
def PacksTo (c : Combination) (packed : PackedSegment) : Prop :=
  ∃ s, c.run = .ok s ∧ finalize s = .ok (some packed)

/-- Every rowid that the states were fed lies in the segment. -/
def FedFrom (segment : Nat) (c : Combination) : Prop :=
  ∀ r ∈ c.fed, 0 ≤ r ∧ r < 2 ^ 63 ∧ r.toNat >>> segmentShift = segment

def packedRow (key : Key) (segment : Nat) (packed : PackedSegment) (generation hwm : Int) : InputRow Key :=
  ⟨some key, some segment, some packed.postings, some packed.rowidCount, some packed.minRowid, some packed.maxRowid,
    some generation, some hwm⟩

def groupList (c : Combination) : List Nat := sortUnique (c.rowids.map Int.toNat)

def described (rowids : List Nat) : PackedSegment :=
  ⟨blobOf rowids, rowids.length, rowids.headD 0, rowids.getLastD 0⟩

section Group
variable {c : Combination} {segment : Nat}

theorem mem_groupList (fed : FedFrom segment c) {r : Nat} : r ∈ groupList c ↔ (r : Int) ∈ c.rowids := by
  rw [groupList, mem_sortUnique, List.mem_map]
  constructor
  · intro ⟨x, present, same⟩
    have positive := (fed x (fed_of_rowids c x present)).1
    have value : x = (r : Int) := by omega
    rwa [← value]
  · intro present
    exact ⟨r, present, Int.toNat_natCast r⟩

theorem groupList_segment (fed : FedFrom segment c) {r : Nat} (listed : r ∈ groupList c) :
    r / segmentRows = segment ∧ r ≤ int64Max := by
  obtain ⟨_, small, inside⟩ := fed r (fed_of_rowids c r ((mem_groupList fed).mp listed))
  rw [Int.toNat_natCast, Nat.shiftRight_eq_div_pow] at inside
  refine ⟨inside, ?_⟩
  simp only [int64Max]
  omega

theorem packs_described (fed : FedFrom segment c) (held : c.rowids ≠ []) : PacksTo c (described (groupList c)) := by
  obtain ⟨s, packed, ran, finalized, describes⟩ := combination_finalized c fed held
  have nonempty : groupList c ≠ [] := by
    rw [groupList, ne_eq, sortUnique_eq_nil, List.map_eq_nil_iff]
    exact held
  have members : ∀ r, r ∈ c.rowids ↔ ∃ o ∈ groupList c, ((0 : Nat) : Int) + o = r := by
    intro r
    constructor
    · intro present
      have positive := (fed r (fed_of_rowids c r present)).1
      have value : (r.toNat : Int) = r := Int.toNat_of_nonneg positive
      exact ⟨r.toNat, (mem_groupList fed).mpr (value.symm ▸ present), by omega⟩
    · rintro ⟨o, listed, rfl⟩
      have present := (mem_groupList fed).mp listed
      rwa [Int.natCast_zero, Int.zero_add]
  have written := described_offsets (sortUnique_ascending _) nonempty members
  have same := describes_eq describes written (fun r present => (fed r (fed_of_rowids c r present)).1) fun r => Iff.rfl
  refine ⟨s, ran, ?_⟩
  rw [finalized, same]
  simp [described, groupList]

theorem packs_held (fed : FedFrom segment c) {packed : PackedSegment} (packs : PacksTo c packed) : c.rowids ≠ [] := by
  intro empty
  have based : ∀ r ∈ c.fed, 0 ≤ r ∧ segmentBase r.toNat = segment <<< segmentShift :=
    fun r present => ⟨(fed r present).1, segmentBase_of_segment (fed r present).2.2⟩
  obtain ⟨s, ran, holds⟩ := combination_packs c based
  obtain ⟨t, again, finalized⟩ := packs
  rw [ran] at again
  cases again
  rw [finalize, if_pos ((isEmpty_iff holds.sound).mpr ((packs_nil_iff holds).mpr empty))] at finalized
  cases finalized

theorem packsTo_unique {p q : PackedSegment} (left : PacksTo c p) (right : PacksTo c q) : p = q := by
  obtain ⟨s, ran, finalized⟩ := left
  obtain ⟨t, again, other⟩ := right
  rw [ran] at again
  cases again
  rw [finalized] at other
  cases other
  rfl

theorem unpackedRow_of {checked : Bool} {row : InputRow Key} {columns : Columns Key} {rowids : List Nat}
    (valid : row.columns checked = some columns) (decoded : decodePostings columns.postings = .ok rowids)
    (passes : ∀ d, columns.descriptor = some d → checkDescriptor columns.segmentNo d rowids = .ok ()) :
    unpackedRow checked row = .ok (outputRows columns rowids) := by
  rw [unpackedRow, valid]
  simp only [decodeRow]
  rw [decoded, bind_of_ok rfl]
  cases described : columns.descriptor with
  | none => rfl
  | some d =>
    simp only
    rw [passes d described]
    rfl

theorem unpacked_described (fed : FedFrom segment c) (held : c.rowids ≠ []) (checked : Bool) (key : Key)
    {generation hwm : Int} (settled : 0 ≤ generation) (below : ∀ r ∈ c.rowids, r ≤ hwm) :
    unpackedRow checked (packedRow key segment (described (groupList c)) generation hwm) =
      .ok ((groupList c).map fun r => ⟨key, (segment : Int), r⟩) := by
  have nonempty : groupList c ≠ [] := by
    rw [groupList, ne_eq, sortUnique_eq_nil, List.map_eq_nil_iff]
    exact held
  have ascending : Ascending (groupList c) := sortUnique_ascending _
  have window : (groupList c).length ≤ segmentRows := by
    refine @window_length _ (segment * segmentRows) _ (ascending_nodup ascending) fun r listed => ?_
    have inside := (groupList_segment fed listed).1
    simp only [segmentRows, segmentShift] at inside ⊢
    omega
  have decoded : decodePostings (blobOf (groupList c)) = .ok (groupList c) := by
    refine decode_blobOf ascending (fun r listed => (groupList_segment fed listed).2) ?_
    simp only [segmentRows, segmentShift, int64Max] at window ⊢
    omega
  have sound : checkDescriptor segment
      ⟨(groupList c).length, (groupList c).headD 0, (groupList c).getLastD 0, generation, hwm⟩ (groupList c) = .ok () := by
    cases checks : checkDescriptor segment
      ⟨(groupList c).length, (groupList c).headD 0, (groupList c).getLastD 0, generation, hwm⟩ (groupList c) with
    | ok u => rfl
    | error e =>
      rcases checkDescriptor_error.mp ⟨e, checks⟩ with empty | ⟨r, listed, wrong | above⟩ | negative | wrong
      · exact absurd empty nonempty
      · exact absurd (congrArg Nat.cast (groupList_segment fed listed).1) wrong
      · exact absurd (below r ((mem_groupList fed).mp listed)) (not_le.mpr above)
      · exact absurd settled (not_le.mpr negative)
      · simp at wrong
  cases checked with
  | false =>
    refine @unpackedRow_of _ _ _ ⟨key, segment, blobOf (groupList c), none⟩ _ rfl decoded fun d same => ?_
    cases same
  | true =>
    refine @unpackedRow_of _ _ _ ⟨key, segment, blobOf (groupList c), some ⟨(groupList c).length,
      (groupList c).headD 0, (groupList c).getLastD 0, generation, hwm⟩⟩ _ rfl decoded fun d same => ?_
    cases same
    exact sound

end Group

theorem repacked {segment : Nat} {c : Combination} {packed : PackedSegment} (fed : FedFrom segment c)
    (packs : PacksTo c packed) (checked : Bool) (key : Key) {generation hwm : Int}
    (settled : 0 ≤ generation) (below : ∀ r ∈ c.rowids, r ≤ hwm) :
    ∃ out, unpackedRow checked (packedRow key segment packed generation hwm) = .ok out ∧
      (∀ row ∈ out, row.gramKey = key ∧ row.segmentNo = segment) ∧
      ∀ again : Combination, (∀ r ∈ again.fed, ∃ row ∈ out, r = row.rowid) →
        (∀ row ∈ out, (row.rowid : Int) ∈ again.rowids) → PacksTo again packed := by
  have held := packs_held fed packs
  obtain rfl := packsTo_unique packs (packs_described fed held)
  refine ⟨_, unpacked_described fed held checked key settled below, ?_, ?_⟩
  · intro row listed
    obtain ⟨r, _, rfl⟩ := List.mem_map.mp listed
    exact ⟨rfl, rfl⟩
  · intro again from_out all
    have refed : FedFrom segment again := by
      intro r present
      obtain ⟨row, listed, rfl⟩ := from_out r present
      obtain ⟨n, in_list, rfl⟩ := List.mem_map.mp listed
      exact fed n (fed_of_rowids c n ((mem_groupList fed).mp in_list))
    have same : groupList again = groupList c := by
      apply ascending_ext (sortUnique_ascending _) (sortUnique_ascending _)
      intro r
      constructor
      · intro listed
        obtain ⟨row, in_out, value⟩ := from_out r (fed_of_rowids again r ((mem_groupList refed).mp listed))
        obtain ⟨n, in_list, rfl⟩ := List.mem_map.mp in_out
        have number : r = n := Int.ofNat_inj.mp value
        exact number ▸ in_list
      · intro listed
        exact (mem_groupList refed).mpr (all _ (List.mem_map_of_mem listed))
    have reheld : again.rowids ≠ [] := by
      intro empty
      have no_list : groupList again = [] := by
        rw [groupList, empty]
        rfl
      rw [same, groupList, sortUnique_eq_nil, List.map_eq_nil_iff] at no_list
      exact held no_list
    rw [← same]
    exact packs_described refed reheld

end Packing

/-- Over all its resumed calls the function puts out the flattening of its input, chunk by
    chunk and in chunks of at most the vector size, up to the first row that raises. The checked form
    raises when a row is rejected and only then. What a packed row unpacks to packs to it again. -/
theorem unpack_streams :
    (∀ (checked : Bool) (chunks : List (List (InputRow Key))), ∃ enough, ∀ fuel, enough ≤ fuel →
      ∃ outs result, drainInputs (unpackPostingsFunction checked) fuel chunks initLocal = some (outs, result) ∧
        (∀ out ∈ outs.flatten, out.length ≤ standardVectorSize) ∧
        ((∃ t, result = .ok t ∧ unpackedRows checked chunks.flatten = .ok outs.flatten.flatten ∧
            List.Forall₂ (fun chunk out => unpackedRows checked chunk = .ok out.flatten) chunks outs) ∨
          ∃ e good rows, result = .error e ∧ unpackedRows checked chunks.flatten = .error e ∧
            good <+: chunks.flatten ∧ unpackedRows checked good = .ok rows ∧ outs.flatten.flatten <+: rows) ∧
        (checked = true → ((∃ e, result = .error e) ↔ ∃ row ∈ chunks.flatten, Rejected row))) ∧
    ∀ (segment : Nat) (c : Combination) (packed : PackedSegment), FedFrom segment c →
      PacksTo c packed → ∀ (checked : Bool) (key : Key) (generation hwm : Int), 0 ≤ generation →
      (∀ r ∈ c.rowids, r ≤ hwm) →
      ∃ out, unpackedRow checked (packedRow key segment packed generation hwm) = .ok out ∧
        (∀ row ∈ out, row.gramKey = key ∧ row.segmentNo = segment) ∧
        ∀ again : Combination, (∀ r ∈ again.fed, ∃ row ∈ out, r = row.rowid) →
          (∀ row ∈ out, (row.rowid : Int) ∈ again.rowids) → PacksTo again packed := by
  refine ⟨fun checked chunks => ?_, fun segment c packed fed packs checked key generation hwm settled below =>
    repacked fed packs checked key settled below⟩
  obtain ⟨enough, runs⟩ := drainInputs_drained (by decide)
    (fun input => @unpack_gives Key checked input) (fun input s ready => fresh_starts ready) chunks
  refine ⟨enough, fun fuel allowed => ?_⟩
  obtain ⟨outs, result, run, drained⟩ := runs fuel allowed initLocal ⟨rfl, rfl⟩
  have said := drained_rows drained
  refine ⟨outs, result, run, allDrained_short drained, said, ?_⟩
  rintro rfl
  have rejected : (∃ e, unpackedRows true chunks.flatten = .error e) ↔ ∃ row ∈ chunks.flatten, Rejected row := by
    rw [unpackedRows_error]
    simp only [unpackedRow_rejected]
  rw [← rejected]
  rcases said with ⟨t, rfl, flat, _⟩ | ⟨e, _, _, rfl, flat, _⟩
  · rw [flat]
    exact ⟨nofun, nofun⟩
  · exact ⟨fun _ => ⟨e, flat⟩, fun _ => ⟨e, rfl⟩⟩

def twoRows : List (InputRow Nat) :=
  [packedRow 7 0 (described [3, 5]) 0 9, packedRow 8 0 (described [4]) 0 9]

/-- Two rows in two chunks, and a group of two threads that packs to what its row unpacks to. -/
theorem two_rows_unpacked :
    (∃ fuel outs t, drainInputs (unpackPostingsFunction true) fuel [twoRows, []] initLocal = some (outs, .ok t) ∧
      outs.flatten.flatten = [⟨7, 0, 3⟩, ⟨7, 0, 5⟩, ⟨8, 0, 4⟩]) ∧
    ∃ out, unpackedRow true (packedRow 7 3 (described (groupList threadStates)) 0 3145737) = .ok out ∧
      ∀ again : Combination, (∀ r ∈ again.fed, ∃ row ∈ out, r = row.rowid) →
        (∀ row ∈ out, (row.rowid : Int) ∈ again.rowids) → PacksTo again (described (groupList threadStates)) := by
  have rows : unpackedRows true [twoRows, []].flatten = .ok [⟨7, 0, 3⟩, ⟨7, 0, 5⟩, ⟨8, 0, 4⟩] := by decide +kernel
  have fed : FedFrom 3 threadStates := by
    unfold FedFrom
    decide
  refine ⟨?_, ?_⟩
  · obtain ⟨enough, runs⟩ := unpack_streams.1 true [twoRows, []]
    obtain ⟨outs, result, run, _, said, _⟩ := runs enough (Nat.le_refl enough)
    rcases said with ⟨t, rfl, flat, _⟩ | ⟨e, _, _, _, raised, _⟩
    · rw [rows] at flat
      exact ⟨enough, outs, t, run, (ok_inj flat).symm⟩
    · rw [rows] at raised
      cases raised
  · obtain ⟨out, unpacked, _, again⟩ := unpack_streams.2 3 threadStates (described (groupList threadStates))
      fed (packs_described fed (by decide)) true 7 0 3145737 (by decide) (by decide)
    exact ⟨out, unpacked, again⟩

end NgramUnpackPostings
