import NgramIndex.Postings

/- The postings codec both ways. A blob is decoded to the rowids it was encoded
   from, sorted and without repeats, and a blob of shortest varints is the encoding
   of what it is decoded to. -/
namespace NgramPostings
open AscendingLists

/-- A vector of 64-bit integers, whose bytes a pointer difference can count. -/
structure RowidVector where
  rowids : List Int
  words : ∀ r ∈ rowids, -2 ^ 63 ≤ r ∧ r < 2 ^ 63
  size : rowids.length * 8 < 2 ^ 63

section Written

theorem toNat_bounded (xs : RowidVector) : ∀ r ∈ sortUnique (xs.rowids.map Int.toNat), r ≤ int64Max := by
  intro r listed
  obtain ⟨x, present, rfl⟩ := List.mem_map.mp (mem_sortUnique.mp listed)
  have word := xs.words x present
  simp only [int64Max]
  omega

theorem sortUnique_short (xs : RowidVector) : (sortUnique (xs.rowids.map Int.toNat)).length ≤ int64Max := by
  have distinct := ascending_nodup (sortUnique_ascending (xs.rowids.map Int.toNat))
  have covered : sortUnique (xs.rowids.map Int.toNat) ⊆ xs.rowids.map Int.toNat :=
    fun r listed => mem_sortUnique.mp listed
  have fewer := (List.subperm_of_subset distinct covered).length_le
  have size := xs.size
  rw [List.length_map] at fewer
  simp only [int64Max]
  omega

theorem mem_distinct {xs : List Int} (settled : ∀ r ∈ xs, 0 ≤ r) (r : Nat) :
    r ∈ sortUnique (xs.map Int.toNat) ↔ (r : Int) ∈ xs := by
  rw [mem_sortUnique, List.mem_map]
  constructor
  · intro ⟨x, present, same⟩
    have positive := settled x present
    have value : x = (r : Int) := by omega
    rwa [← value]
  · intro present
    exact ⟨r, present, Int.toNat_natCast r⟩

theorem decode_encodePostings (xs : RowidVector) (settled : ∀ r ∈ xs.rowids, 0 ≤ r) :
    ∃ blob, encodePostings xs.rowids = .ok blob ∧
      decodePostings blob = .ok (sortUnique (xs.rowids.map Int.toNat)) ∧
      postingsCount blob = .ok (sortUnique (xs.rowids.map Int.toNat)).length := by
  refine ⟨_, encodePostings_ok settled, ?_, ?_⟩
  · exact decode_blobOf (sortUnique_ascending _) (toNat_bounded xs) (sortUnique_short xs)
  · exact postingsCount_blobOf (sortUnique_short xs)

end Written

section Read

theorem readVarintFrom_code {value shift v : Nat} {data rest : List UInt8}
    (run : readVarintFrom value shift data = .ok (v, rest)) :
    ∃ code, data = code ++ rest ∧ Leb128.IsCode code ∧ v = value + Leb128.value code * 2 ^ shift := by
  induction data generalizing value shift with
  | nil => cases run
  | cons byte data ih =>
    obtain ⟨_, run⟩ := Fallible.check_ok run
    obtain ⟨_, run⟩ := Fallible.check_ok run
    obtain ⟨more, run⟩ | ⟨last, run⟩ := Fallible.branch_ok run
    · obtain ⟨code, rfl, isCode, rfl⟩ := ih run
      refine ⟨byte :: code, rfl, ?_, ?_⟩
      · cases code with
        | nil => exact isCode.elim
        | cons next code => exact ⟨more, isCode⟩
      · rw [Leb128.value, Nat.pow_add]
        ring
    · obtain ⟨_, run⟩ := Fallible.check_ok run
      obtain ⟨rfl, rfl⟩ := Prod.mk.inj (Fallible.ok_inj run)
      refine ⟨[byte], rfl, eq_false_of_ne_true last, ?_⟩
      rw [Leb128.value, Leb128.value, Nat.mul_zero, Nat.add_zero]

theorem readRowids_codes {current count : Nat} {isFirst : Bool} {data rest : List UInt8} {rowids : List Nat}
    (run : readRowids current isFirst count data = .ok (rowids, rest)) :
    ∃ codes : List (List UInt8), data = codes.flatten ++ rest ∧ (∀ code ∈ codes, Leb128.IsCode code) ∧
      codes.map Leb128.value = deltas current rowids := by
  induction count generalizing current isFirst data rowids with
  | zero =>
    obtain ⟨rfl, rfl⟩ := Prod.mk.inj (Fallible.ok_inj run)
    exact ⟨[], rfl, nofun, rfl⟩
  | succ count ih =>
    obtain ⟨⟨delta, later⟩, read, run⟩ := Fallible.bind_ok run
    obtain ⟨_, run⟩ := Fallible.check_ok run
    obtain ⟨_, run⟩ := Fallible.check_ok run
    obtain ⟨⟨others, left⟩, rows, run⟩ := Fallible.bind_ok run
    obtain ⟨rfl, rfl⟩ := Prod.mk.inj (Fallible.ok_inj run)
    obtain ⟨code, rfl, isCode, value⟩ := readVarintFrom_code read
    obtain ⟨codes, rfl, each, values⟩ := ih rows
    refine ⟨code :: codes, ?_, List.forall_mem_cons.mpr ⟨isCode, each⟩, ?_⟩
    · rw [List.flatten_cons, List.append_assoc]
    · rw [List.map_cons, values, deltas, Nat.add_sub_cancel_left, value, Nat.zero_add, Nat.pow_zero, Nat.mul_one]

theorem decodePostings_codes {blob : List UInt8} {rowids : List Nat} (run : decodePostings blob = .ok rowids) :
    ∃ codes : List (List UInt8), blob = postingsFormatVersion :: codes.flatten ∧ (∀ code ∈ codes, Leb128.IsCode code) ∧
      codes.map Leb128.value = rowids.length :: deltas 0 rowids := by
  cases blob with
  | nil => exact nomatch run
  | cons version data =>
    obtain ⟨known, run⟩ := Fallible.check_ok run
    obtain ⟨⟨count, later⟩, read, run⟩ := Fallible.bind_ok run
    obtain ⟨⟨list, left⟩, rows, run⟩ := Fallible.bind_ok run
    obtain ⟨whole, run⟩ := Fallible.check_ok run
    obtain rfl := Fallible.ok_inj run
    obtain ⟨code, rfl, isCode, value⟩ := readVarintFrom_code read
    obtain ⟨codes, rfl, each, values⟩ := readRowids_codes rows
    have length := readRowids_length rows
    simp only at length whole
    refine ⟨code :: codes, ?_, List.forall_mem_cons.mpr ⟨isCode, each⟩, ?_⟩
    · rw [not_not.mp known, not_not.mp whole, List.append_nil, List.flatten_cons]
    · rw [List.map_cons, values, length, value, Nat.zero_add, Nat.pow_zero, Nat.mul_one]

theorem blobOf_decoded {blob : List UInt8} {rowids : List Nat} (run : decodePostings blob = .ok rowids)
    (shortest : ∀ code ∈ Leb128.codes blob.tail, Leb128.Shortest code) : blobOf rowids = blob := by
  obtain ⟨codes, rfl, each, values⟩ := decodePostings_codes run
  rw [List.tail_cons, Leb128.codes_flatten each] at shortest
  have same : codes.map (fun code => Leb128.encode (Leb128.value code)) = codes := by
    rw [List.map_congr_left fun code listed => Leb128.encode_value (each code listed) (shortest code listed)]
    exact List.map_id codes
  calc blobOf rowids
      = postingsFormatVersion :: ((rowids.length :: deltas 0 rowids).map Leb128.encode).flatten := by
        rw [blobOf, List.map_cons, List.flatten_cons, List.flatMap_def]
    _ = postingsFormatVersion :: codes.flatten := by
        rw [← values, List.map_map]
        exact congrArg (fun codes => postingsFormatVersion :: codes.flatten) same

theorem readRowids_bounded {current count : Nat} {isFirst : Bool} {data : List UInt8}
    {result : List Nat × List UInt8} (run : readRowids current isFirst count data = .ok result)
    (below : current ≤ int64Max) : ∀ r ∈ result.1, r ≤ int64Max := by
  induction count generalizing current isFirst data result with
  | zero =>
    obtain rfl : ([], data) = result := Fallible.ok_inj run
    exact nofun
  | succ count ih =>
    obtain ⟨⟨delta, later⟩, _, run⟩ := Fallible.bind_ok run
    obtain ⟨_, run⟩ := Fallible.check_ok run
    obtain ⟨room, run⟩ := Fallible.check_ok run
    obtain ⟨others, rows, run⟩ := Fallible.bind_ok run
    rw [← Fallible.ok_inj run]
    exact List.forall_mem_cons.mpr ⟨by omega, ih rows (by omega)⟩

theorem decodePostings_bounded {blob : List UInt8} {rowids : List Nat} (run : decodePostings blob = .ok rowids) :
    ∀ r ∈ rowids, r ≤ int64Max := by
  cases blob with
  | nil => exact nomatch run
  | cons version data =>
    obtain ⟨_, run⟩ := Fallible.check_ok run
    obtain ⟨_, _, run⟩ := Fallible.bind_ok run
    obtain ⟨result, rows, run⟩ := Fallible.bind_ok run
    obtain ⟨_, run⟩ := Fallible.check_ok run
    rw [← Fallible.ok_inj run]
    exact readRowids_bounded rows (Nat.zero_le int64Max)

theorem sortUnique_casts {rowids : List Nat} (ascending : Ascending rowids) :
    sortUnique ((rowids.map Int.ofNat).map Int.toNat) = rowids := by
  apply ascending_ext (sortUnique_ascending _) ascending
  intro r
  rw [mem_sortUnique, List.map_map]
  simp

end Read

/-- Decoding an encoding yields the distinct rowids in order, equal sets are encoded
    alike, and a blob of shortest varints is encoded from what it is decoded to. -/
theorem postings_round_trip :
    (∀ xs : RowidVector, (∀ r ∈ xs.rowids, 0 ≤ r) → ∃ blob rowids, encodePostings xs.rowids = .ok blob ∧
      decodePostings blob = .ok rowids ∧ Ascending rowids ∧ (∀ r : Nat, r ∈ rowids ↔ (r : Int) ∈ xs.rowids) ∧
      postingsCount blob = .ok rowids.length) ∧
    (∀ xs ys : RowidVector, (∀ r, r ∈ xs.rowids ↔ r ∈ ys.rowids) →
      encodePostings xs.rowids = encodePostings ys.rowids) ∧
    (∀ blob rowids, decodePostings blob = .ok rowids →
      (∀ code ∈ Leb128.codes blob.tail, Leb128.Shortest code) →
      encodePostings (rowids.map Int.ofNat) = .ok blob) ∧
    ∀ xs : RowidVector, (∃ r ∈ xs.rowids, r < 0) → encodePostings xs.rowids = .error negativeRowid := by
  refine ⟨?_, ?_, ?_, ?_⟩
  · intro xs settled
    obtain ⟨blob, encoded, decoded, counted⟩ := decode_encodePostings xs settled
    exact ⟨blob, _, encoded, decoded, sortUnique_ascending _, mem_distinct settled, counted⟩
  · intro xs ys same
    have negative : (∃ r ∈ xs.rowids, r < 0) ↔ ∃ r ∈ ys.rowids, r < 0 := by simp only [same]
    have distinct : sortUnique (xs.rowids.map Int.toNat) = sortUnique (ys.rowids.map Int.toNat) := by
      apply sortUnique_congr
      intro r
      simp only [List.mem_map, same]
    simp only [encodePostings, negative, distinct]
  · intro blob rowids decoded shortest
    have ascending := decodePostings_ascending decoded
    rw [encodePostings_ok fun r listed => ?_, sortUnique_casts ascending, blobOf_decoded decoded shortest]
    obtain ⟨n, _, rfl⟩ := List.mem_map.mp listed
    exact Int.natCast_nonneg n
  · intro xs negative
    exact if_pos negative

/-- Repeats out of order, with the largest delta there is. -/
theorem largest_delta_round_trip :
    (∃ blob, encodePostings [9223372036854775807, 0, 9223372036854775807] = .ok blob ∧
      decodePostings blob = .ok [0, 9223372036854775807] ∧
      encodePostings [0, 9223372036854775807] = .ok blob) ∧
    encodePostings [5] = .ok [1, 1, 5] ∧ encodePostings [3, -1] = .error negativeRowid := by
  refine ⟨?_, ?_, ?_⟩
  · obtain ⟨blob, rowids, encoded, decoded, ascending, members, _⟩ := postings_round_trip.1
      ⟨[9223372036854775807, 0, 9223372036854775807], by decide, by decide⟩ (by decide)
    have listed : Ascending [0, 9223372036854775807] := by decide
    have distinct : rowids = [0, 9223372036854775807] := by
      apply ascending_ext ascending listed
      intro r
      rw [members]
      simp
      omega
    have once := postings_round_trip.2.1 ⟨[9223372036854775807, 0, 9223372036854775807], by decide, by decide⟩
      ⟨[0, 9223372036854775807], by decide, by decide⟩ (by simp)
    exact ⟨blob, encoded, distinct ▸ decoded, once ▸ encoded⟩
  · exact postings_round_trip.2.2.1 [1, 1, 5] [5] (by decide) (by decide)
  · exact postings_round_trip.2.2.2 ⟨[3, -1], by decide, by decide⟩ ⟨-1, by decide, by decide⟩

end NgramPostings
