import Mathlib.Data.List.Basic

/- UTF-8 over lists of bytes. Only the first byte of a codepoint can start one,
   so wherever the bytes of a text occur they start and end between codepoints. -/
namespace Utf8

def encode (codepoints : List Char) : List UInt8 := codepoints.flatMap String.utf8EncodeChar

def bytes (text : String) : List UInt8 := text.toByteArray.data.toList

/-- The codepoint that the bytes start with. -/
def decodeFirst (data : List UInt8) : Option Char := data.toByteArray.utf8DecodeChar? 0

@[simp] theorem encode_nil : encode [] = [] := rfl

@[simp] theorem encode_cons (c : Char) (codepoints : List Char) :
    encode (c :: codepoints) = String.utf8EncodeChar c ++ encode codepoints := rfl

@[simp] theorem encode_append (a b : List Char) : encode (a ++ b) = encode a ++ encode b :=
  List.flatMap_append

theorem bytes_eq_encode (text : String) : bytes text = encode text.toList := by
  unfold bytes encode
  rw [← String.utf8Encode_toList (b := text), List.utf8Encode, List.toList_data_toByteArray]

theorem encodeChar_ne_nil (c : Char) : String.utf8EncodeChar c ≠ [] := by
  apply List.ne_nil_of_length_pos
  rw [String.length_utf8EncodeChar]
  exact c.utf8Size_pos

theorem decodeFirst_encode (c : Char) (rest : List UInt8) :
    decodeFirst (String.utf8EncodeChar c ++ rest) = some c := by
  unfold decodeFirst
  rw [List.toByteArray_append]
  exact ByteArray.utf8DecodeChar?_utf8EncodeChar_append

theorem decodeFirst_some {data : List UInt8} {c : Char} (read : decodeFirst data = some c) :
    ∃ rest, data = String.utf8EncodeChar c ++ rest := by
  obtain ⟨rest, whole⟩ := ByteArray.exists_of_utf8DecodeChar?_eq_some read
  refine ⟨rest.data.toList, ?_⟩
  have lists := congrArg (fun bytes => bytes.data.toList) whole
  simpa using lists

theorem encodeChar_inj {c d : Char} {a b : List UInt8}
    (same : String.utf8EncodeChar c ++ a = String.utf8EncodeChar d ++ b) : c = d ∧ a = b := by
  have first : c = d := by
    have decoded := congrArg decodeFirst same
    rw [decodeFirst_encode, decodeFirst_encode] at decoded
    exact Option.some.inj decoded
  subst first
  exact ⟨rfl, List.append_cancel_left same⟩

theorem first_byte_position (c : Char) (pre post : List UInt8) (byte : UInt8)
    (split : String.utf8EncodeChar c = pre ++ byte :: post) :
    byte.IsUTF8FirstByte ↔ pre = [] := by
  have inside : pre.length < (String.utf8EncodeChar c).length := by
    rw [split, List.length_append, List.length_cons]
    omega
  have here : (String.utf8EncodeChar c)[pre.length] = byte := by
    simp only [split, List.getElem_append_right (Nat.le_refl _), Nat.sub_self,
      List.getElem_cons_zero]
  rw [← here, UInt8.isUTF8FirstByte_getElem_utf8EncodeChar, List.length_eq_zero_iff]

theorem encode_starts (c : Char) (codepoints : List Char) :
    ∃ byte rest, encode (c :: codepoints) = byte :: rest ∧ byte.IsUTF8FirstByte := by
  cases start : String.utf8EncodeChar c with
  | nil => exact absurd start (encodeChar_ne_nil c)
  | cons byte rest =>
    refine ⟨byte, rest ++ encode codepoints, ?_, (first_byte_position c [] rest byte start).mpr rfl⟩
    rw [encode_cons, start, List.cons_append]

theorem encode_prefix {text needle : List Char} {post : List UInt8}
    (split : encode text = encode needle ++ post) :
    ∃ right, text = needle ++ right ∧ encode right = post := by
  induction needle generalizing text with
  | nil => exact ⟨text, rfl, split⟩
  | cons c needle ih =>
    cases text with
    | nil =>
      rw [encode_nil, encode_cons, List.append_assoc] at split
      exact absurd (List.append_eq_nil_iff.mp split.symm).1 (encodeChar_ne_nil c)
    | cons d text =>
      rw [encode_cons, encode_cons, List.append_assoc] at split
      obtain ⟨rfl, rest⟩ := encodeChar_inj split
      obtain ⟨right, rfl, ends⟩ := ih rest
      exact ⟨right, rfl, ends⟩

/-- A text's bytes occur in another only between codepoints. -/
theorem occurrence_on_boundaries {text needle : List Char} {pre post : List UInt8}
    (nonempty : needle ≠ []) (split : encode text = pre ++ encode needle ++ post) :
    ∃ left right, text = left ++ needle ++ right ∧ encode left = pre ∧ encode right = post := by
  induction text generalizing pre with
  | nil =>
    have empty := List.append_eq_nil_iff.mp (List.append_eq_nil_iff.mp split.symm).1
    cases needle with
    | nil => exact absurd rfl nonempty
    | cons c needle => exact absurd (List.append_eq_nil_iff.mp empty.2).1 (encodeChar_ne_nil c)
  | cons d text ih =>
    cases pre with
    | nil =>
      obtain ⟨right, whole, ends⟩ := encode_prefix (split.trans (List.append_assoc _ _ _))
      exact ⟨[], right, whole, rfl, ends⟩
    | cons first pre =>
      rw [encode_cons, List.append_assoc] at split
      rcases List.append_eq_append_iff.mp split with ⟨gap, before, after⟩ | ⟨inside, within, after⟩
      · obtain ⟨left, right, rfl, starts, ends⟩ := ih (after.trans (List.append_assoc _ _ _).symm)
        exact ⟨d :: left, right, rfl, by rw [encode_cons, starts, before], ends⟩
      · cases inside with
        | nil =>
          rw [List.append_nil] at within
          rw [List.nil_append] at after
          obtain ⟨left, right, rfl, starts, ends⟩ := @ih [] (after.symm.trans rfl)
          refine ⟨d :: left, right, rfl, ?_, ends⟩
          rw [encode_cons, starts, within, List.append_nil]
        | cons byte inside =>
          -- the needle would start at a byte inside the codepoint `d`
          cases needle with
          | nil => exact absurd rfl nonempty
          | cons c needle =>
            obtain ⟨start, rest, starts, isFirst⟩ := encode_starts c needle
            rw [starts, List.cons_append, List.cons_append] at after
            obtain rfl : start = byte := (List.cons.inj after).1
            exact absurd ((first_byte_position d _ _ _ within).mp isFirst) (List.cons_ne_nil _ _)

def offset (codepoints : List Char) (i : Nat) : Nat := (encode (codepoints.take i)).length

def boundaries (codepoints : List Char) : List Nat :=
  (List.range (codepoints.length + 1)).map (offset codepoints)

@[simp] theorem boundaries_length (codepoints : List Char) :
    (boundaries codepoints).length = codepoints.length + 1 := by
  simp [boundaries]

theorem boundaries_nil : boundaries [] = [0] := rfl

theorem boundaries_cons (c : Char) (codepoints : List Char) :
    boundaries (c :: codepoints) = 0 :: (boundaries codepoints).map (c.utf8Size + ·) := by
  unfold boundaries
  rw [List.length_cons, List.range_succ_eq_map, List.map_cons, List.map_map, List.map_map]
  congr 1
  apply List.map_congr_left
  intro i _
  simp [offset]

theorem boundaries_at {codepoints : List Char} {i : Nat} (inside : i ≤ codepoints.length) :
    (boundaries codepoints).getD i 0 = offset codepoints i := by
  have bound : i < codepoints.length + 1 := Nat.lt_succ_of_le inside
  simp [boundaries, List.getD_eq_getElem?_getD, bound]

theorem mem_boundaries (left right : List Char) :
    (encode left).length ∈ boundaries (left ++ right) := by
  apply List.mem_map.mpr
  refine ⟨left.length, ?_, ?_⟩
  · rw [List.mem_range, List.length_append]
    omega
  · rw [offset, List.take_left]

/-- The ends of an occurrence are boundaries of the text. -/
theorem occurrence_ends {text needle : List Char} {pre post : List UInt8} (nonempty : needle ≠ [])
    (split : encode text = pre ++ encode needle ++ post) :
    pre.length ∈ boundaries text ∧ (pre ++ encode needle).length ∈ boundaries text := by
  obtain ⟨left, right, rfl, rfl, _⟩ := occurrence_on_boundaries nonempty split
  constructor
  · rw [List.append_assoc]
    exact mem_boundaries left _
  · rw [← encode_append]
    exact mem_boundaries (left ++ needle) right

def slice (codepoints : List Char) (first finish : Nat) : List Char :=
  (codepoints.drop first).take (finish - first)

theorem slice_length {codepoints : List Char} {first finish : Nat}
    (inside : finish ≤ codepoints.length) : (slice codepoints first finish).length = finish - first := by
  rw [slice, List.length_take, List.length_drop]
  omega

theorem slice_slice {codepoints : List Char} {first finish i j : Nat} (inside : first + j ≤ finish) :
    slice (slice codepoints first finish) i j = slice codepoints (first + i) (first + j) := by
  unfold slice
  rw [List.drop_take, List.drop_drop, List.take_take]
  congr 1
  omega

theorem slice_append (left needle right : List Char) {first finish : Nat}
    (inside : finish ≤ needle.length) :
    slice (left ++ needle ++ right) (left.length + first) (left.length + finish) =
      slice needle first finish := by
  unfold slice
  rw [List.append_assoc, List.drop_append, List.drop_eq_nil_of_le (Nat.le_add_right _ _),
    List.nil_append, Nat.add_sub_cancel_left, List.drop_append, Nat.add_sub_add_left]
  apply List.take_append_of_le_length
  rw [List.length_drop]
  omega

theorem encode_slice {codepoints : List Char} {first finish : Nat} (order : first ≤ finish) :
    ((encode codepoints).drop (offset codepoints first)).take
      (offset codepoints finish - offset codepoints first) = encode (slice codepoints first finish) := by
  have whole : codepoints.take finish = codepoints.take first ++ slice codepoints first finish := by
    rw [slice, ← List.take_add, Nat.add_sub_cancel' order]
  have parts : encode codepoints =
      encode (codepoints.take first) ++ (encode (slice codepoints first finish) ++
        encode (codepoints.drop finish)) := by
    rw [← List.append_assoc, ← encode_append, ← whole, ← encode_append, List.take_append_drop]
  have length : offset codepoints finish - offset codepoints first =
      (encode (slice codepoints first finish)).length := by
    unfold offset
    rw [whole, encode_append, List.length_append, Nat.add_sub_cancel_left]
  rw [length, parts]
  unfold offset
  rw [List.drop_left, List.take_left]

end Utf8
