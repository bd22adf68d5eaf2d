import NgramIndex.Ascending
import NgramIndex.Fallible
import NgramIndex.Leb128

/- The postings blob: a version byte, the rowid count, the first rowid and the
   deltas between consecutive rowids, each a varint. Encoding sorts and removes
   repeats, so a blob is a function of the rowid set alone. -/
namespace NgramPostings
open AscendingLists

def postingsFormatVersion : UInt8 := 1
def int64Max : Nat := 2 ^ 63 - 1

def malformedBlob : String := "ngram: malformed postings blob"
def unknownFormat : String := "ngram: unknown postings blob format"
def negativeRowid : String := "ngram: postings cannot contain negative rowids"

/-- ReadVarint from the value and shift it has accumulated. -/
def readVarintFrom (value shift : Nat) : List UInt8 → Except String (Nat × List UInt8)
  | [] => .error malformedBlob
  | byte :: rest =>
      if 63 < shift then .error malformedBlob
      -- At shift 63 only the lowest payload bit is inside 64 bits.
      else if shift = 63 ∧ 2 ≤ Leb128.payload byte then .error malformedBlob
      else if Leb128.continues byte then
        readVarintFrom (value + Leb128.payload byte * 2 ^ shift) (shift + 7) rest
      else if int64Max < value + Leb128.payload byte * 2 ^ shift then .error malformedBlob
      else .ok (value + Leb128.payload byte * 2 ^ shift, rest)

def readVarint (data : List UInt8) : Except String (Nat × List UInt8) := readVarintFrom 0 0 data

/-- The first rowid, then the distance of each rowid from the one before it. -/
def deltas (previous : Nat) : List Nat → List Nat
  | [] => []
  | current :: rest => (current - previous) :: deltas current rest

theorem deltas_length (previous : Nat) (rowids : List Nat) : (deltas previous rowids).length = rowids.length := by
  induction rowids generalizing previous with
  | nil => rfl
  | cons current rowids ih => rw [deltas, List.length_cons, List.length_cons, ih]

/-- The blob of rowids that are sorted and unique already. -/
def blobOf (rowids : List Nat) : List UInt8 :=
  postingsFormatVersion :: (Leb128.encode rowids.length ++ (deltas 0 rowids).flatMap Leb128.encode)

def encodePostings (rowids : List Int) : Except String (List UInt8) :=
  if ∃ rowid ∈ rowids, rowid < 0 then .error negativeRowid
  else .ok (blobOf (sortUnique (rowids.map Int.toNat)))

def readRowids (current : Nat) (isFirst : Bool) :
    Nat → List UInt8 → Except String (List Nat × List UInt8)
  | 0, data => .ok ([], data)
  | count + 1, data => do
      let (delta, data) ← readVarint data
      if isFirst = false ∧ delta = 0 then .error malformedBlob
      if int64Max - current < delta then .error malformedBlob
      let (rest, data) ← readRowids (current + delta) false count data
      return ((current + delta) :: rest, data)

def decodePostings : List UInt8 → Except String (List Nat)
  | [] => .error unknownFormat
  | version :: data => do
      if version ≠ postingsFormatVersion then .error unknownFormat
      let (count, data) ← readVarint data
      let (rowids, data) ← readRowids 0 true count data
      if data ≠ [] then .error malformedBlob
      return rowids

def postingsCount : List UInt8 → Except String Nat
  | [] => .error unknownFormat
  | version :: data => do
      if version ≠ postingsFormatVersion then .error unknownFormat
      let (count, _) ← readVarint data
      return count

theorem readRowids_length {current count : Nat} {isFirst : Bool} {data : List UInt8} {result : List Nat × List UInt8}
    (run : readRowids current isFirst count data = .ok result) : result.1.length = count := by
  induction count generalizing current isFirst data result with
  | zero =>
    obtain rfl : ([], data) = result := Fallible.ok_inj run
    rfl
  | succ count ih =>
    obtain ⟨⟨delta, later⟩, _, run⟩ := Fallible.bind_ok run
    obtain ⟨_, run⟩ := Fallible.check_ok run
    obtain ⟨_, run⟩ := Fallible.check_ok run
    obtain ⟨rest, read, run⟩ := Fallible.bind_ok run
    rw [← Fallible.ok_inj run, List.length_cons, ih read]

/-- A blob that decodes holds as many rowids as it announces. -/
theorem decodePostings_count {data : List UInt8} {rowids : List Nat} (run : decodePostings data = .ok rowids) :
    postingsCount data = .ok rowids.length := by
  cases data with
  | nil => exact nomatch run
  | cons version data =>
    obtain ⟨known, run⟩ := Fallible.check_ok run
    obtain ⟨⟨count, later⟩, read, run⟩ := Fallible.bind_ok run
    obtain ⟨result, rows, run⟩ := Fallible.bind_ok run
    obtain ⟨_, run⟩ := Fallible.check_ok run
    unfold postingsCount
    simp only
    rw [if_neg known, Fallible.bind_of_ok read, ← Fallible.ok_inj run,
      readRowids_length rows]
    rfl

theorem readRowids_ascending {current count : Nat} {isFirst : Bool} {data : List UInt8}
    {result : List Nat × List UInt8} (run : readRowids current isFirst count data = .ok result) :
    Ascending result.1 ∧ ∀ r ∈ result.1, current ≤ r ∧ (isFirst = false → current < r) := by
  induction count generalizing current isFirst data result with
  | zero =>
    obtain rfl : ([], data) = result := Fallible.ok_inj run
    exact ⟨List.Pairwise.nil, nofun⟩
  | succ count ih =>
    obtain ⟨⟨delta, later⟩, _, run⟩ := Fallible.bind_ok run
    obtain ⟨moves, run⟩ := Fallible.check_ok run
    obtain ⟨_, run⟩ := Fallible.check_ok run
    obtain ⟨rest, read, run⟩ := Fallible.bind_ok run
    obtain ⟨ascending, above⟩ := ih read
    rw [← Fallible.ok_inj run]
    refine ⟨List.Pairwise.cons (fun r present => (above r present).2 rfl) ascending, ?_⟩
    intro r present
    have first_past : isFirst = false → 0 < delta :=
      fun later => Nat.pos_of_ne_zero fun zero => moves ⟨later, zero⟩
    rcases List.mem_cons.mp present with rfl | behind
    · exact ⟨Nat.le_add_right _ _, fun later => Nat.lt_add_of_pos_right (first_past later)⟩
    · have past := (above r behind).2 rfl
      exact ⟨by omega, fun later => by omega⟩

theorem decodePostings_ascending {data : List UInt8} {rowids : List Nat} (run : decodePostings data = .ok rowids) :
    Ascending rowids := by
  cases data with
  | nil => exact nomatch run
  | cons version data =>
    obtain ⟨_, run⟩ := Fallible.check_ok run
    obtain ⟨_, _, run⟩ := Fallible.bind_ok run
    obtain ⟨result, rows, run⟩ := Fallible.bind_ok run
    obtain ⟨_, run⟩ := Fallible.check_ok run
    rw [← Fallible.ok_inj run]
    exact (readRowids_ascending rows).1

theorem read_encode_from (value shift v : Nat) (rest : List UInt8)
    (fits : value + v * 2 ^ shift ≤ int64Max) (room : shift ≤ 62 ∨ v = 0 ∧ shift ≤ 63) :
    readVarintFrom value shift (Leb128.encode v ++ rest) = .ok (value + v * 2 ^ shift, rest) := by
  induction v using Nat.strongRecOn generalizing value shift with
  | ind v ih =>
    by_cases small : v < 128
    · have bits : ¬ (shift = 63 ∧ 2 ≤ v) := by omega
      simp only [Leb128.encode_small small, List.singleton_append, readVarintFrom,
        Leb128.payload_last small, Leb128.continues_last small, bits, if_false,
        Bool.false_eq_true, if_neg (Nat.not_lt.mpr fits), if_neg (show ¬ 63 < shift by omega)]
    · have large : 128 ≤ v := Nat.le_of_not_lt small
      have split := Leb128.split_value v shift
      have high : 2 ^ (shift + 7) ≤ v / 128 * 2 ^ (shift + 7) :=
        Nat.le_mul_of_pos_left _ (by omega)
      have next_room : shift + 7 ≤ 62 := by
        by_contra above
        have past : 2 ^ 63 ≤ 2 ^ (shift + 7) := Nat.pow_le_pow_right (by omega) (by omega)
        simp only [int64Max] at fits
        omega
      simp only [Leb128.encode_large large, List.cons_append, readVarintFrom, Leb128.payload_more,
        Leb128.continues_more, if_true, if_neg (show ¬ 63 < shift by omega),
        if_neg (show ¬ (shift = 63 ∧ 2 ≤ v % 128) by omega)]
      rw [ih (v / 128) (by omega) _ _ (by omega) (Or.inl next_room)]
      congr 2
      omega

theorem read_encode (v : Nat) (rest : List UInt8) (fits : v ≤ int64Max) :
    readVarint (Leb128.encode v ++ rest) = .ok (v, rest) := by
  have read := read_encode_from 0 0 v rest (by omega) (Or.inl (by omega))
  rw [readVarint, read]
  simp

theorem read_deltas (rowids : List Nat) (previous : Nat) (isFirst : Bool) (rest : List UInt8)
    (asc : Ascending rowids) (bounded : ∀ r ∈ rowids, r ≤ int64Max)
    (after : ∀ r ∈ rowids, previous ≤ r ∧ (isFirst = false → previous < r)) :
    readRowids previous isFirst rowids.length ((deltas previous rowids).flatMap Leb128.encode ++ rest) =
      .ok (rowids, rest) := by
  induction rowids generalizing previous isFirst with
  | nil => simp [readRowids, deltas]
  | cons current rowids ih =>
    obtain ⟨le, lt⟩ := after current (by simp)
    have bound := bounded current (by simp)
    obtain ⟨first, tail⟩ := List.pairwise_cons.mp asc
    have sum : previous + (current - previous) = current := by omega
    simp only [deltas, List.flatMap_cons, List.length_cons, List.append_assoc, readRowids]
    rw [read_encode (current - previous) _ (by omega)]
    have step : ¬ (isFirst = false ∧ current - previous = 0) := by
      rintro ⟨later, zero⟩
      have strict := lt later
      omega
    have next := ih current false tail (fun r hr => bounded r (by simp [hr]))
      (fun r hr => ⟨Nat.le_of_lt (first r hr), fun _ => first r hr⟩)
    simp only [bind, Except.bind, if_neg step, sum,
      if_neg (show ¬ int64Max - previous < current - previous by omega), next, pure, Except.pure]

theorem decode_blobOf {rowids : List Nat} (asc : Ascending rowids)
    (bounded : ∀ r ∈ rowids, r ≤ int64Max) (short : rowids.length ≤ int64Max) :
    decodePostings (blobOf rowids) = .ok rowids := by
  have body := read_deltas rowids 0 true [] asc bounded (fun r _ => ⟨Nat.zero_le r, by simp⟩)
  rw [List.append_nil] at body
  simp only [decodePostings, blobOf, ne_eq, not_true_eq_false, if_false, bind, Except.bind, pure,
    Except.pure, read_encode _ _ short, body]

theorem postingsCount_blobOf {rowids : List Nat} (short : rowids.length ≤ int64Max) :
    postingsCount (blobOf rowids) = .ok rowids.length := by
  simp only [postingsCount, blobOf, ne_eq, not_true_eq_false, if_false, bind, Except.bind, pure,
    Except.pure, read_encode _ _ short]

theorem encodePostings_ok {rowids : List Int} (settled : ∀ r ∈ rowids, 0 ≤ r) :
    encodePostings rowids = .ok (blobOf (sortUnique (rowids.map Int.toNat))) := by
  rw [encodePostings, if_neg]
  rintro ⟨r, present, negative⟩
  have positive := settled r present
  omega

end NgramPostings
