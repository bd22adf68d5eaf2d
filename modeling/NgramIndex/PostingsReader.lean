import NgramIndex.PostingsCodec
import NgramIndex.WordPlanner

/- The postings reader over memory, in the machine's words. A read at or past the size
   given, a shift that loses bits and a sum that wraps report an error of their own. The
   reader does what the one over lists does, so it meets none of them. -/
namespace NgramPostingsReader
open AscendingLists NgramPostings NgramProbe NgramProbeArithmetic MachineWord

/-- Bytes of memory from the address given, of which the first size belong to the blob. -/
structure Blob where
  data : Nat → UInt8
  size : Nat
  word : size ≤ idxMax

def readByte (blob : Blob) (pos : Nat) : Word UInt8 :=
  if blob.size ≤ pos then .error .overrun
  else if idxMax < pos + 1 then .error .wrapped
  else .ok (blob.data pos)

def shiftLeft64 (value shift : Nat) : Word Nat :=
  if 63 < shift ∨ idxMax < value <<< shift then .error .wrapped else .ok (value <<< shift)

def readVarintFrom64 (blob : Blob) (value shift pos : Nat) : Word (Nat × Nat) :=
  if blob.size ≤ pos ∨ 63 < shift then .error (.thrown malformedBlob)
  else do
    let byte ← readByte blob pos
    if shift = 63 ∧ byte &&& 0x7E ≠ 0 then .error (.thrown malformedBlob)
    let bits ← shiftLeft64 (byte &&& 0x7F).toNat shift
    if byte &&& 0x80 = 0 then
      if value ||| bits > int64Max then .error (.thrown malformedBlob)
      return (value ||| bits, pos + 1)
    else
      let shift ← add64 shift 7
      readVarintFrom64 blob (value ||| bits) shift (pos + 1)
termination_by blob.size - pos

def readVarint64 (blob : Blob) (pos : Nat) : Word (Nat × Nat) := readVarintFrom64 blob 0 0 pos

def readRowids64 (blob : Blob) (count i current pos : Nat) (result : List Int) : Word (List Int × Nat) :=
  if i < count then do
    let (delta, pos) ← readVarint64 blob pos
    if i > 0 ∧ delta = 0 then .error (.thrown malformedBlob)
    let room ← sub64 int64Max current
    if delta > room then .error (.thrown malformedBlob)
    let current ← add64 current delta
    let rowid ← signed64 current
    let _ ← add64 i 1
    readRowids64 blob count (i + 1) current pos (result ++ [rowid])
  else .ok (result, pos)
termination_by count - i

def checkVersion64 (blob : Blob) : Word Unit :=
  if blob.size = 0 then .error (.thrown unknownFormat)
  else do
    let version ← readByte blob 0
    if version ≠ postingsFormatVersion then .error (.thrown unknownFormat)

/-- DecodePostings, with the position it ends at. -/
def decodePostings64 (blob : Blob) (result : List Int) : Word (List Int × Nat) := do
  checkVersion64 blob
  let (count, pos) ← readVarint64 blob 1
  let (result, pos) ← readRowids64 blob count 0 0 pos result
  if pos ≠ blob.size then .error (.thrown malformedBlob)
  return (result, pos)

def postingsCount64 (blob : Blob) : Word Nat := do
  checkVersion64 blob
  let (count, _) ← readVarint64 blob 1
  return count

def Blob.rest (blob : Blob) (pos : Nat) : List UInt8 := (List.range' pos (blob.size - pos)).map blob.data

def Blob.bytes (blob : Blob) : List UInt8 := blob.rest 0

section Bits

theorem and_127 (byte : UInt8) : (byte &&& 0x7F).toNat = Leb128.payload byte := by
  have mask : (0x7F : UInt8).toNat = 2 ^ 7 - 1 := rfl
  rw [UInt8.toNat_and, mask, Nat.and_two_pow_sub_one_eq_mod]
  rfl

theorem of_all_bytes {P : UInt8 → Prop} (each : ∀ n : Fin 256, P (UInt8.ofNat n)) (byte : UInt8) : P byte := by
  have here := each ⟨byte.toNat, byte.toNat_lt⟩
  rwa [UInt8.ofNat_toNat] at here

theorem and_128 (byte : UInt8) : byte &&& 0x80 = 0 ↔ Leb128.continues byte = false := by
  apply of_all_bytes (P := fun byte => byte &&& 0x80 = 0 ↔ Leb128.continues byte = false)
  decide +kernel

theorem and_126 (byte : UInt8) : byte &&& 0x7E ≠ 0 ↔ 2 ≤ Leb128.payload byte := by
  apply of_all_bytes (P := fun byte => byte &&& 0x7E ≠ 0 ↔ 2 ≤ Leb128.payload byte)
  decide +kernel

theorem or_shifted {value bits shift : Nat} (low : value < 2 ^ shift) :
    value ||| bits <<< shift = value + bits * 2 ^ shift := by
  rw [Nat.shiftLeft_eq, Nat.or_comm, Nat.mul_comm, ← Nat.two_pow_add_eq_or_of_lt low, Nat.add_comm]

end Bits

section Rest
variable {blob : Blob} {pos : Nat}

theorem rest_step (before : pos < blob.size) : blob.rest pos = blob.data pos :: blob.rest (pos + 1) := by
  have more : blob.size - pos = (blob.size - (pos + 1)) + 1 := by omega
  rw [Blob.rest, more, List.range'_succ, List.map_cons]
  rfl

theorem rest_end (past : blob.size ≤ pos) : blob.rest pos = [] := by
  rw [Blob.rest, Nat.sub_eq_zero_of_le past]
  rfl

theorem rest_length : (blob.rest pos).length = blob.size - pos := by
  rw [Blob.rest, List.length_map, List.length_range']

end Rest

section Follows
variable {blob : Blob} {α β γ δ : Type}

/-- The memory reader does what the list reader does, and stands where the other's rest
    begins. What it has read so far is a view of what the other has. -/
def Follows (blob : Blob) (view : α → β) (word : Word (β × Nat)) (plain : Except String (α × List UInt8)) : Prop :=
  (∃ e, plain = .error e ∧ word = .error (.thrown e)) ∨
    ∃ a pos, pos ≤ blob.size ∧ plain = .ok (a, blob.rest pos) ∧ word = .ok (view a, pos)

theorem follows_throw {view : α → β} (e : String) : Follows blob view (.error (.thrown e)) (.error e) :=
  .inl ⟨e, rfl, rfl⟩

theorem follows_ok {view : α → β} (a : α) {pos : Nat} (inside : pos ≤ blob.size) :
    Follows blob view (.ok (view a, pos)) (.ok (a, blob.rest pos)) := .inr ⟨a, pos, inside, rfl, rfl⟩

theorem follows_bind {view : α → β} {next : γ → δ} {word : Word (β × Nat)} {plain : Except String (α × List UInt8)}
    {f : β × Nat → Word (δ × Nat)} {g : α × List UInt8 → Except String (γ × List UInt8)}
    (first : Follows blob view word plain)
    (rest : ∀ a pos, pos ≤ blob.size → Follows blob next (f (view a, pos)) (g (a, blob.rest pos))) :
    Follows blob next (word >>= f) (plain >>= g) := by
  rcases first with ⟨e, rfl, rfl⟩ | ⟨a, pos, inside, rfl, rfl⟩
  · exact follows_throw e
  · exact rest a pos inside

/-- The plain reader has something left to do with what it has read. -/
theorem follows_map {view : α → β} {next : γ → β} {word : Word (β × Nat)} {plain : Except String (α × List UInt8)}
    (h : α → γ) (same : ∀ a, next (h a) = view a) (first : Follows blob view word plain) :
    Follows blob next word (plain >>= fun r => .ok (h r.1, r.2)) := by
  rcases first with ⟨e, rfl, rfl⟩ | ⟨a, pos, inside, rfl, rfl⟩
  · exact follows_throw e
  · exact .inr ⟨h a, pos, inside, rfl, by rw [same]⟩

theorem follows_check {c d : Prop} [Decidable c] [Decidable d] {view : α → β} {e : String} {word : Word (β × Nat)}
    {plain : Except String (α × List UInt8)} (same : c ↔ d) (rest : ¬ d → Follows blob view word plain) :
    Follows blob view (if c then .error (.thrown e) else word) (if d then .error e else plain) := by
  by_cases raised : d
  · rw [if_pos raised, if_pos (same.mpr raised)]
    exact follows_throw e
  · rw [if_neg raised, if_neg (mt same.mp raised)]
    exact rest raised

end Follows

section Agreement
variable {blob : Blob}

theorem readByte_inside {pos : Nat} (before : pos < blob.size) : readByte blob pos = .ok (blob.data pos) := by
  have word := blob.word
  rw [readByte, if_neg (Nat.not_le.mpr before), if_neg (by omega)]

/-- Seven payload bits at a shift that is inside 64 bits, the topmost one alone. -/
theorem shiftLeft64_payload {byte : UInt8} {k : Nat} (room : 7 * k ≤ 63)
    (top : ¬ (7 * k = 63 ∧ 2 ≤ Leb128.payload byte)) :
    shiftLeft64 (Leb128.payload byte) (7 * k) = .ok (Leb128.payload byte <<< (7 * k)) := by
  have small := Leb128.payload_lt byte
  have fits : Leb128.payload byte <<< (7 * k) ≤ idxMax := by
    rw [Nat.shiftLeft_eq, idxMax]
    rcases Nat.lt_or_ge (7 * k) 57 with short | long
    · have scaled : Leb128.payload byte * 2 ^ (7 * k) ≤ 127 * 2 ^ 56 :=
        Nat.mul_le_mul (Nat.le_of_lt_succ small) (Nat.pow_le_pow_right (by decide) (by omega))
      omega
    · have last : 7 * k = 63 := by omega
      have bit : Leb128.payload byte ≤ 1 := by omega
      have scaled := Nat.mul_le_mul_right (2 ^ 63) bit
      rw [last]
      omega
  rw [shiftLeft64, if_neg (by omega)]

theorem readVarintFrom64_follows {value k pos : Nat} (inside : pos ≤ blob.size) (low : value < 2 ^ (7 * k)) :
    Follows blob id (readVarintFrom64 blob value (7 * k) pos) (readVarintFrom value (7 * k) (blob.rest pos)) := by
  induction left : blob.size - pos generalizing value k pos with
  | zero =>
    have past : blob.size ≤ pos := by omega
    rw [readVarintFrom64, if_pos (Or.inl past), rest_end past]
    exact follows_throw _
  | succ left ih =>
    have before : pos < blob.size := by omega
    rw [readVarintFrom64, rest_step before, readVarintFrom]
    refine follows_check (by omega) fun room => ?_
    rw [Fallible.bind_of_ok (readByte_inside before)]
    refine follows_check (by rw [and_126]) fun top => ?_
    rw [and_127, Fallible.bind_of_ok (shiftLeft64_payload (by omega) top), or_shifted low]
    have scale : 2 ^ (7 * k + 7) = 128 * 2 ^ (7 * k) := by rw [Nat.pow_add]; ring
    have small := Leb128.payload_lt (blob.data pos)
    have next_low : value + Leb128.payload (blob.data pos) * 2 ^ (7 * k) < 2 ^ (7 * (k + 1)) := by
      have scaled := Nat.mul_le_mul_right (2 ^ (7 * k)) (Nat.le_of_lt_succ small)
      rw [Nat.mul_succ, scale]
      omega
    by_cases more : Leb128.continues (blob.data pos) = true
    · rw [if_pos more, if_neg (by rw [and_128, more]; decide), add64, addWord, if_pos (by simp only [idxMax]; omega)]
      exact ih before next_low (by omega)
    · rw [if_neg more, if_pos (by rw [and_128]; exact eq_false_of_ne_true more)]
      exact follows_check Iff.rfl fun _ => follows_ok _ before

theorem readVarint64_follows {pos : Nat} (inside : pos ≤ blob.size) :
    Follows blob id (readVarint64 blob pos) (readVarint (blob.rest pos)) :=
  readVarintFrom64_follows inside (k := 0) (by decide)

theorem readVarint_bounded {data rest : List UInt8} {v : Nat} (run : readVarint data = .ok (v, rest)) :
    v ≤ int64Max := by
  suffices general : ∀ value shift, readVarintFrom value shift data = .ok (v, rest) → v ≤ int64Max from
    general 0 0 run
  clear run
  induction data with
  | nil => exact nofun
  | cons byte data ih =>
    intro value shift run
    obtain ⟨_, run⟩ := Fallible.check_ok run
    obtain ⟨_, run⟩ := Fallible.check_ok run
    obtain ⟨_, run⟩ | ⟨_, run⟩ := Fallible.branch_ok run
    · exact ih _ _ run
    · obtain ⟨fits, run⟩ := Fallible.check_ok run
      obtain ⟨rfl, _⟩ := Prod.mk.inj (Fallible.ok_inj run)
      exact Nat.le_of_not_lt fits

theorem readRowids64_follows {count i current pos : Nat} {result : List Int} (inside : pos ≤ blob.size)
    (numbered : count ≤ int64Max) (below : current ≤ int64Max) (listed : i ≤ count) :
    Follows blob (fun rowids => result ++ rowids.map Int.ofNat) (readRowids64 blob count i current pos result)
      (readRowids current (decide (i = 0)) (count - i) (blob.rest pos)) := by
  induction left : count - i generalizing i current pos result with
  | zero =>
    rw [readRowids64, if_neg (by omega)]
    exact .inr ⟨[], pos, inside, rfl, by simp⟩
  | succ left ih =>
    rw [readRowids64, if_pos (by omega)]
    refine follows_bind (readVarint64_follows inside) fun delta later further => ?_
    refine follows_check (by simp; omega) fun moves => ?_
    rw [sub64, subWord, if_pos below, Fallible.bind_of_ok rfl]
    refine follows_check Iff.rfl fun room => ?_
    simp only [id_eq] at room ⊢
    have sum : current + delta ≤ int64Max := by omega
    have word : signed64 (current + delta : Nat) = .ok ((current + delta : Nat) : Int) := by
      rw [signed64, signedWord, if_pos ⟨by omega, by omega⟩]
    rw [add64, addWord, if_pos (by simp only [idxMax, int64Max] at *; omega), Fallible.bind_of_ok rfl,
      Fallible.bind_of_ok word, add64, addWord, if_pos (by simp only [idxMax, int64Max] at *; omega),
      Fallible.bind_of_ok rfl]
    have next := @ih (i + 1) (current + delta) later (result ++ [((current + delta : Nat) : Int)]) further sum
      (by omega) (by omega)
    rw [decide_eq_false (Nat.succ_ne_zero i)] at next
    refine follows_map (fun others => (current + delta) :: others) (fun others => ?_) next
    rw [List.map_cons, List.append_assoc, List.singleton_append]
    rfl

theorem checkVersion64_ok {version : UInt8} {data : List UInt8} (bytes : blob.bytes = version :: data) :
    checkVersion64 blob = (if version ≠ postingsFormatVersion then .error (.thrown unknownFormat) else .ok ()) ∧
      0 < blob.size ∧ blob.rest 1 = data := by
  have some : 0 < blob.size := by
    by_contra empty
    rw [Blob.bytes, rest_end (Nat.le_of_not_lt empty)] at bytes
    cases bytes
  rw [Blob.bytes, rest_step some] at bytes
  obtain ⟨first, others⟩ := List.cons.inj bytes
  refine ⟨?_, some, others⟩
  rw [checkVersion64, if_neg (by omega), Fallible.bind_of_ok (readByte_inside some), first]
  rfl

theorem bytes_nil (bytes : blob.bytes = []) : blob.size = 0 := by
  have length := @rest_length blob 0
  rw [Blob.bytes] at bytes
  rw [bytes] at length
  exact length.symm

theorem decodePostings64_agrees (result : List Int) :
    Agrees (decodePostings64 blob result)
      (decodePostings blob.bytes >>= fun rowids => .ok (result ++ rowids.map Int.ofNat, blob.size)) := by
  unfold Agrees decodePostings64
  cases bytes : blob.bytes with
  | nil =>
    rw [checkVersion64, if_pos (bytes_nil bytes)]
    rfl
  | cons version data =>
    obtain ⟨checked, some, rfl⟩ := checkVersion64_ok bytes
    rw [checked, decodePostings]
    by_cases unknown : version ≠ postingsFormatVersion
    · rw [if_pos unknown, if_pos unknown]
      rfl
    rw [if_neg unknown, if_neg unknown]
    rcases readVarint64_follows some with ⟨e, plain, word⟩ | ⟨count, pos, inside, plain, word⟩
    · rw [Fallible.bind_of_ok rfl, word, plain]
      rfl
    have numbered := readVarint_bounded plain
    have rows := @readRowids64_follows blob count 0 0 pos result inside numbered (Nat.zero_le int64Max) (Nat.zero_le count)
    rw [Fallible.bind_of_ok rfl, word, plain]
    rcases rows with ⟨e, plain, word⟩ | ⟨rowids, pos, inside, plain, word⟩
    · have plain : readRowids 0 true count (blob.rest _) = .error e := plain
      simp only [bind, Except.bind, id, word, plain]
      rfl
    have plain : readRowids 0 true count (blob.rest _) = .ok (rowids, blob.rest pos) := plain
    have ended : blob.rest pos ≠ [] ↔ pos ≠ blob.size := by
      rw [ne_eq, ← List.length_eq_zero_iff, rest_length]
      omega
    simp only [bind, Except.bind, id, word, plain, ended]
    by_cases whole : pos ≠ blob.size
    · rw [if_pos whole, if_pos whole]
      rfl
    · rw [if_neg whole, if_neg whole, not_not.mp whole]
      rfl

theorem postingsCount64_agrees : Agrees (postingsCount64 blob) (postingsCount blob.bytes) := by
  unfold Agrees postingsCount64
  cases bytes : blob.bytes with
  | nil =>
    rw [checkVersion64, if_pos (bytes_nil bytes)]
    rfl
  | cons version data =>
    obtain ⟨checked, some, rfl⟩ := checkVersion64_ok bytes
    rw [checked, postingsCount]
    by_cases unknown : version ≠ postingsFormatVersion
    · rw [if_pos unknown, if_pos unknown]
      rfl
    rw [if_neg unknown, if_neg unknown]
    rcases readVarint64_follows some with ⟨e, plain, word⟩ | ⟨count, pos, inside, plain, word⟩
    · rw [Fallible.bind_of_ok rfl, word, plain]
      rfl
    · rw [Fallible.bind_of_ok rfl, word, plain]
      rfl

end Agreement

section Safety

def Raised (e : String) : Prop := e = unknownFormat ∨ e = malformedBlob

theorem readVarint_raises (data : List UInt8) : Fallible.FailsOnly Raised (readVarint data) := by
  suffices general : ∀ value shift, Fallible.FailsOnly Raised (readVarintFrom value shift data) from general 0 0
  induction data with
  | nil =>
    rintro value shift _ ⟨⟩
    exact Or.inr rfl
  | cons byte data ih =>
    intro value shift
    refine Fallible.fails_raise (Or.inr rfl) fun _ => Fallible.fails_raise (Or.inr rfl) fun _ => ?_
    exact Fallible.fails_branch (fun _ => ih _ _)
      fun _ => Fallible.fails_raise (Or.inr rfl) fun _ => Fallible.fails_ok _

theorem readRowids_raises (current count : Nat) (isFirst : Bool) (data : List UInt8) :
    Fallible.FailsOnly Raised (readRowids current isFirst count data) := by
  induction count generalizing current isFirst data with
  | zero => exact Fallible.fails_ok _
  | succ count ih =>
    refine Fallible.fails_bind (readVarint_raises data) fun read _ => ?_
    refine Fallible.fails_raise (Or.inr rfl) fun _ => Fallible.fails_raise (Or.inr rfl) fun _ => ?_
    exact Fallible.fails_bind (ih _ _ _) fun rest _ => Fallible.fails_ok _

theorem decodePostings_raises (data : List UInt8) : Fallible.FailsOnly Raised (decodePostings data) := by
  cases data with
  | nil =>
    rintro _ ⟨⟩
    exact Or.inl rfl
  | cons version data =>
    refine Fallible.fails_raise (Or.inl rfl) fun _ => ?_
    refine Fallible.fails_bind (readVarint_raises data) fun read _ => ?_
    refine Fallible.fails_bind (readRowids_raises 0 _ true _) fun rows _ => ?_
    exact Fallible.fails_raise (Or.inr rfl) fun _ => Fallible.fails_ok _

/-- Each rowid takes a byte at least, next to the version and the count. -/
theorem decodePostings_room {data : List UInt8} {rowids : List Nat} (run : decodePostings data = .ok rowids) :
    rowids.length + 2 ≤ data.length := by
  obtain ⟨codes, rfl, each, values⟩ := decodePostings_codes run
  have number := congrArg List.length values
  have longer := Leb128.length_le_flatten each
  rw [List.length_map, List.length_cons, deltas_length] at number
  rw [List.length_cons]
  omega

end Safety

/-- Whatever the bytes are, the reader meets no fault of the machine. It raises, or it has
    consumed the whole blob and appended as many rowids as the header says, in ascending
    order and inside 63 bits, which are the exact sums of what the blob's varints denote. -/
theorem decoding_is_safe (blob : Blob) (result : List Int) :
    (decodePostings64 blob result ≠ .error .wrapped ∧ decodePostings64 blob result ≠ .error .overrun ∧
      postingsCount64 blob ≠ .error .wrapped ∧ postingsCount64 blob ≠ .error .overrun) ∧
    ((∃ e, Raised e ∧ decodePostings64 blob result = .error (.thrown e)) ∨
      ∃ rowids : List Nat, decodePostings64 blob result = .ok (result ++ rowids.map Int.ofNat, blob.size) ∧
        (∃ first, readVarint64 blob 1 = .ok (rowids.length, first)) ∧ postingsCount64 blob = .ok rowids.length ∧
        Ascending rowids ∧ (∀ r ∈ rowids, r ≤ int64Max) ∧ rowids.length + 2 ≤ blob.size ∧
        ∃ codes : List (List UInt8), blob.bytes = postingsFormatVersion :: codes.flatten ∧
          (∀ code ∈ codes, Leb128.IsCode code) ∧
          codes.map Leb128.value = rowids.length :: deltas 0 rowids) := by
  have decoded := @decodePostings64_agrees blob result
  have counted := @postingsCount64_agrees blob
  refine ⟨?_, ?_⟩
  · obtain ⟨no_wrap, no_overrun⟩ := agrees_faultless decoded
    exact ⟨no_wrap, no_overrun, agrees_faultless counted⟩
  unfold Agrees at decoded counted
  cases run : decodePostings blob.bytes with
  | error e =>
    rw [run] at decoded
    exact .inl ⟨e, decodePostings_raises blob.bytes e run, decoded⟩
  | ok rowids =>
    rw [run] at decoded
    rw [decodePostings_count run] at counted
    have header : ∃ first, readVarint64 blob 1 = .ok (rowids.length, first) := by
      unfold postingsCount64 at counted
      obtain ⟨_, _, counted⟩ := Fallible.bind_ok counted
      obtain ⟨⟨count, first⟩, read, counted⟩ := Fallible.bind_ok counted
      obtain rfl := Fallible.ok_inj counted
      exact ⟨first, read⟩
    have room := decodePostings_room run
    rw [Blob.bytes, rest_length, Nat.sub_zero] at room
    exact .inr ⟨rowids, decoded, header, counted, decodePostings_ascending run, decodePostings_bounded run, room,
      decodePostings_codes run⟩

end NgramPostingsReader
