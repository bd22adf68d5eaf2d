import NgramIndex.BigEndian
import NgramIndex.GramSuperset
import NgramIndex.IndexRegistry
import NgramIndex.LengthFramed

/- Owner keys over the bytes of names. A key frames each folded name by its length, so
   it determines the three folded names, whatever bytes they hold. -/
namespace NgramOwnerKeys
open NgramGram Utf8 BigEndian LengthFramed

/-- A string of bytes, no longer than its size can count. -/
structure Name where
  bytes : List UInt8
  sized : bytes.length < 2 ^ 64
  deriving DecidableEq

/-- What the registry calls of the host: StringUtil::Lower and CIEquals, and the text
    of a UUID with the reading of one, which can fail. -/
structure Host where
  lower : Name → Name
  ciEquals : Name → Name → Bool
  uuidText : BitVec 128 → String
  uuidOf : String → Except (List UInt8) (BitVec 128)

/-- Lower folds each byte by the ASCII table; CIEquals compares sizes, then the bytes
    by the same table. -/
structure Host.FoldsBytes (host : Host) : Prop where
  lower : ∀ name, (host.lower name).bytes = name.bytes.map asciiToLower
  ciEquals : ∀ a b, host.ciEquals a b = true ↔
    List.Forall₂ (fun x y => asciiToLower x = asciiToLower y) a.bytes b.bytes

def lengthBytes (length : UInt64) : List UInt8 :=
  (List.range 8).map fun shift => (length >>> UInt64.ofNat ((7 - shift) * 8)).toUInt8

def ownerKey (host : Host) (schema table column : Name) : List UInt8 :=
  [schema, table, column].flatMap fun part =>
    lengthBytes (UInt64.ofNat part.bytes.length) ++ (host.lower part).bytes

section Lengths

theorem lengthBytes_digits (length : UInt64) : lengthBytes length = digits 8 length.toNat := by
  refine List.map_congr_left fun i listed => UInt8.toNat_inj.mp ?_
  have inside := List.mem_range.mp listed
  have shift : (UInt64.ofNat ((7 - i) * 8)).toNat % 64 = 8 * (7 - i) := by
    rw [UInt64.toNat_ofNat']
    omega
  rw [UInt64.toNat_toUInt8, UInt64.toNat_shiftRight, shift, Nat.shiftRight_eq_div_pow, Nat.pow_mul,
    UInt8.toNat_ofNat']

theorem lengthBytes_length (length : UInt64) : (lengthBytes length).length = 8 := by
  rw [lengthBytes_digits, digits_length]

theorem lengthBytes_value (length : UInt64) : value (lengthBytes length) = length.toNat := by
  rw [lengthBytes_digits, value_digits]
  exact Nat.mod_eq_of_lt length.toNat_lt

/-- The header of a part of an owner key. -/
def lengthHeader : Header UInt8 where
  width := 8
  limit := 2 ^ 64
  tag n := lengthBytes (UInt64.ofNat n)
  wide n := lengthBytes_length _
  tells m n low low' same := by
    have values := congrArg value same
    rw [lengthBytes_value, lengthBytes_value, UInt64.toNat_ofNat', UInt64.toNat_ofNat'] at values
    rwa [Nat.mod_eq_of_lt low, Nat.mod_eq_of_lt low'] at values

end Lengths

section Keys
variable {host : Host}

theorem lower_length (folds : host.FoldsBytes) (name : Name) : (host.lower name).bytes.length = name.bytes.length := by
  rw [folds.lower, List.length_map]

theorem ciEquals_iff (folds : host.FoldsBytes) {a b : Name} :
    host.ciEquals a b = true ↔ (host.lower a).bytes = (host.lower b).bytes := by
  rw [folds.ciEquals, folds.lower, folds.lower, ← List.forall₂_eq_eq_eq, List.forall₂_map_left_iff,
    List.forall₂_map_right_iff]

theorem ownerKey_layout (folds : host.FoldsBytes) (schema table column : Name) :
    ownerKey host schema table column =
      layout lengthHeader [(host.lower schema).bytes, (host.lower table).bytes, (host.lower column).bytes] := by
  simp only [ownerKey, layout, frame, lengthHeader, List.flatMap_cons, List.flatMap_nil, lower_length folds]

theorem folded_fit (schema table column : Name) : ∀ part ∈ [(host.lower schema).bytes, (host.lower table).bytes,
    (host.lower column).bytes], part.length < lengthHeader.limit := by
  simp only [List.forall_mem_cons, List.not_mem_nil, false_implies, implies_true, and_true]
  exact ⟨(host.lower schema).sized, (host.lower table).sized, (host.lower column).sized⟩

theorem ownerKey_eq_iff (folds : host.FoldsBytes) {schema table column schema' table' column' : Name} :
    ownerKey host schema table column = ownerKey host schema' table' column' ↔
      host.ciEquals schema schema' = true ∧ host.ciEquals table table' = true ∧
        host.ciEquals column column' = true := by
  rw [ciEquals_iff folds, ciEquals_iff folds, ciEquals_iff folds, ownerKey_layout folds, ownerKey_layout folds]
  constructor
  · intro same
    have parts := layout_injective (by decide) (folded_fit schema table column)
      (folded_fit schema' table' column') same
    simpa using parts
  · rintro ⟨schemas, tables, columns⟩
    rw [schemas, tables, columns]

theorem ownerKey_ne_nil (schema table column : Name) : ownerKey host schema table column ≠ [] := by
  apply List.ne_nil_of_length_pos
  rw [ownerKey, List.flatMap_cons, List.length_append, List.length_append, lengthBytes_length]
  omega

end Keys
section Text
variable {host : Host}

theorem folded_char (c : Char) : (String.utf8EncodeChar c).map asciiToLower = String.utf8EncodeChar c.toLower := by
  by_cases ascii : c.toNat < 0x80
  · have table : ∀ n < 128, (Char.ofNat n).toLower.toNat < 0x80 ∧
        asciiToLower (Char.ofNat n).toUInt8 = (Char.ofNat n).toLower.toUInt8 := by decide
    have folded := table c.toNat ascii
    rw [Char.ofNat_toNat] at folded
    rw [encodeChar_ascii ascii, encodeChar_ascii folded.1, List.map_singleton, folded.2]
  · rw [toLower_high (Nat.le_of_not_lt ascii)]
    refine (List.map_congr_left fun byte listed => ?_).trans (List.map_id _)
    have high : ¬ byte < 0x80 := by
      intro low
      obtain ⟨before, after, split⟩ := List.append_of_mem listed
      have single : ∀ n < 128, UInt8.ofNat n &&& 0x80 = 0 := by decide
      have top := single byte.toNat (UInt8.lt_iff_toNat_lt.mp low)
      rw [UInt8.ofNat_toNat] at top
      have first : byte.IsUTF8FirstByte := .inl top
      obtain rfl := (first_byte_position c before after byte split).mp first
      exact ascii ((first_byte_ascii split).mp low)
    unfold asciiToLower
    rw [if_neg]
    · rfl
    · rintro ⟨_, upper⟩
      exact high (UInt8.lt_of_le_of_lt upper (by decide))

theorem folded_text (text : List Char) : (encode text).map asciiToLower = encode (text.map Char.toLower) := by
  induction text with
  | nil => rfl
  | cons c text ih => rw [encode_cons, List.map_append, folded_char, ih, List.map_cons, encode_cons]

theorem encode_injective {a b : List Char} (same : encode a = encode b) : a = b := by
  have split : encode a = encode b ++ [] := same.trans (List.append_nil _).symm
  obtain ⟨rest, rfl, empty⟩ := encode_prefix split
  cases rest with
  | nil => exact List.append_nil b
  | cons c rest => exact absurd (List.append_eq_nil_iff.mp empty).1 (encodeChar_ne_nil c)

def nameOf (text : String) (sized : text.utf8ByteSize < 2 ^ 64) : Name :=
  ⟨bytes text, by rwa [bytes, Array.length_toList]⟩

theorem folded_name (folds : host.FoldsBytes) (text : String) (sized : text.utf8ByteSize < 2 ^ 64) :
    (host.lower (nameOf text sized)).bytes = encode (text.toList.map Char.toLower) := by
  have stored : (nameOf text sized).bytes = encode text.toList := bytes_eq_encode text
  rw [folds.lower, stored, folded_text]

theorem text_ciEquals (folds : host.FoldsBytes) {a b : String} (sized : a.utf8ByteSize < 2 ^ 64)
    (sized' : b.utf8ByteSize < 2 ^ 64) : host.ciEquals (nameOf a sized) (nameOf b sized') = ciEquals a b := by
  rw [Bool.eq_iff_iff, ciEquals_iff folds, folded_name folds, folded_name folds, NgramGram.ciEquals,
    decide_eq_true_iff]
  exact ⟨encode_injective, congrArg encode⟩

/-- Folding keeps every codepoint's size, so the folded text determines the length. -/
theorem folded_size {a b : String} (same : a.toList.map Char.toLower = b.toList.map Char.toLower) :
    a.utf8ByteSize = b.utf8ByteSize := by
  have folded := congrArg (fun text => (encode text).length) same
  simp only [← folded_text, List.length_map, ← bytes_eq_encode] at folded
  simpa [bytes] using folded

/-- The owner keys of texts, framed as pairs of a size and folded codepoints. -/
theorem text_ownerKey (folds : host.FoldsBytes) {s t c s' t' c' : String} (s_sized : s.utf8ByteSize < 2 ^ 64)
    (t_sized : t.utf8ByteSize < 2 ^ 64) (c_sized : c.utf8ByteSize < 2 ^ 64) (s_sized' : s'.utf8ByteSize < 2 ^ 64)
    (t_sized' : t'.utf8ByteSize < 2 ^ 64) (c_sized' : c'.utf8ByteSize < 2 ^ 64) :
    ownerKey host (nameOf s s_sized) (nameOf t t_sized) (nameOf c c_sized) =
        ownerKey host (nameOf s' s_sized') (nameOf t' t_sized') (nameOf c' c_sized') ↔
      NgramIndexRegistry.ownerKey s t c = NgramIndexRegistry.ownerKey s' t' c' := by
  have part : ∀ a b : String, NgramGram.ciEquals a b = true ↔
      (a.utf8ByteSize, a.toList.map Char.toLower) = (b.utf8ByteSize, b.toList.map Char.toLower) := by
    intro a b
    rw [NgramGram.ciEquals, decide_eq_true_iff, Prod.mk.injEq]
    exact ⟨fun same => ⟨folded_size same, same⟩, And.right⟩
  rw [ownerKey_eq_iff folds, text_ciEquals folds, text_ciEquals folds, text_ciEquals folds, part, part, part]
  simp [NgramIndexRegistry.ownerKey]

end Text
end NgramOwnerKeys
