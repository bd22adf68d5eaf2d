import Mathlib.Data.List.GetD
import NgramIndex.BigEndian
import NgramIndex.GramKeysChunk
import NgramIndex.Maintenance

/- The key spaces of an index. A packed key is its gram's bytes, padded with zeros
   to 16, read as a number. Grams of one codepoint count never extend each other, and
   no first byte of a codepoint reaches those of hashed and bucket keys. -/
namespace NgramGram
open AscendingLists Utf8 BigEndian NgramProbe NgramMaintenance

section Packing

def padded (start : Nat) (data : List UInt8) : List UInt8 :=
  (List.range 8).map fun i => data.getD (start + i) 0

theorem packHalf_value (start : Nat) (data : List UInt8) : (packHalf start data).toNat = value (padded start data) := by
  suffices packed : ∀ k ≤ 8, ((List.range k).foldl (fun half i => half |||
      ((data.getD (start + i) 0).toUInt64 <<< UInt64.ofNat ((7 - i) * 8))) (0 : UInt64)).toNat =
      value ((List.range k).map fun i => data.getD (start + i) 0) * 256 ^ (8 - k) by
    have whole := packed 8 (Nat.le_refl 8)
    rwa [Nat.sub_self, Nat.pow_zero, Nat.mul_one] at whole
  intro k
  induction k with
  | zero => simp
  | succ k ih =>
    intro bound
    have byte := (data.getD (start + k) 0).toNat_lt
    have before := ih (Nat.le_of_succ_le bound)
    have scale : 256 ^ (8 - k) = 256 * 256 ^ (8 - (k + 1)) := by
      rw [← Nat.pow_succ']
      congr 1
      omega
    have low : (data.getD (start + k) 0).toNat * 256 ^ (8 - (k + 1)) < 256 ^ (8 - k) := by
      rw [scale]
      exact Nat.mul_lt_mul_of_pos_right byte (Nat.pow_pos (by decide))
    have whole : 256 ^ (8 - k) ≤ 2 ^ 64 := (Nat.pow_le_pow_right (by decide) (Nat.sub_le 8 k)).trans (by decide)
    have bits : (UInt64.ofNat ((7 - k) * 8)).toNat % 64 = 8 * (8 - (k + 1)) := by
      rw [UInt64.toNat_ofNat']
      omega
    have shifted : ((data.getD (start + k) 0).toUInt64 <<< UInt64.ofNat ((7 - k) * 8)).toNat =
        (data.getD (start + k) 0).toNat * 256 ^ (8 - (k + 1)) := by
      rw [UInt64.toNat_shiftLeft, bits, Nat.shiftLeft_eq, Nat.pow_mul, UInt8.toNat_toUInt64]
      exact Nat.mod_eq_of_lt (low.trans_le whole)
    rw [List.range_succ, List.foldl_append, List.map_append, List.foldl_cons, List.foldl_nil, List.map_cons,
      List.map_nil, value_concat, UInt64.toNat_or, before, shifted]
    have power : 256 ^ (8 - k) = 2 ^ (8 * (8 - k)) := by rw [Nat.pow_mul]
    rw [power] at low ⊢
    rw [Nat.mul_comm _ (2 ^ _), ← Nat.two_pow_add_eq_or_of_lt low, ← power, scale]
    ring

def Uhugeint.value (key : Uhugeint) : Nat := key.upper.toNat * 2 ^ 64 + key.lower.toNat

theorem uhugeint_value_lt {a b : Uhugeint} : a < b ↔ a.value < b.value := by
  rw [uhugeint_lt, Uhugeint.value, Uhugeint.value, digits_lt a.lower.toNat_lt b.lower.toNat_lt]

theorem and_ones (x : UInt64) : x &&& 0xFFFFFFFFFFFFFFFF = x := by
  apply UInt64.toNat_inj.mp
  have ones : (0xFFFFFFFFFFFFFFFF : UInt64).toNat = 2 ^ 64 - 1 := rfl
  rw [UInt64.toNat_and, ones, Nat.and_two_pow_sub_one_eq_mod]
  exact Nat.mod_eq_of_lt x.toNat_lt

theorem gramKey_packed {data : List UInt8} (short : data.length ≤ packedKeyBytes) :
    gramKey data {} = ⟨packHalf 0 data, packHalf 8 data⟩ := by
  rw [gramKey, if_pos short, and_ones, and_ones]

theorem gramKey_hashed {data : List UInt8} (long : ¬ data.length ≤ packedKeyBytes) :
    gramKey data {} = ⟨0xFFFFFFFFFFFFFFFF, fnv1a data⟩ := by
  rw [gramKey, if_neg long, and_ones, and_ones]

def zeros (data : List UInt8) : List UInt8 := List.replicate (packedKeyBytes - data.length) 0

theorem padded_halves {data : List UInt8} (short : data.length ≤ packedKeyBytes) :
    padded 0 data ++ padded 8 data = data ++ zeros data := by
  have whole : padded 0 data ++ padded 8 data = (List.range 16).map fun i => data.getD i 0 := by
    rw [padded, padded, show (16 : Nat) = 8 + 8 from rfl, List.range_add, List.map_append, List.map_map]
    simp only [Nat.zero_add, Function.comp_def]
  have length : (data ++ zeros data).length = 16 := by
    rw [List.length_append, zeros, List.length_replicate]
    exact Nat.add_sub_cancel' short
  rw [whole]
  apply List.ext_getElem
  · rw [length, List.length_map, List.length_range]
  · intro i _ _
    rw [List.getElem_map, List.getElem_range]
    by_cases inside : i < data.length
    · rw [List.getElem_append_left inside, List.getD_eq_getElem _ _ inside]
    · rw [List.getElem_append_right (Nat.le_of_not_lt inside), List.getD_eq_default _ _ (Nat.le_of_not_lt inside)]
      simp [zeros]

theorem packed_value {data : List UInt8} (short : data.length ≤ packedKeyBytes) :
    (gramKey data {}).value = value (data ++ zeros data) := by
  have half : (padded 8 data).length = 8 := by rw [padded, List.length_map, List.length_range]
  rw [gramKey_packed short, ← padded_halves short, value_append, half, Uhugeint.value, packHalf_value, packHalf_value]
  rfl

theorem padded_length {data : List UInt8} (short : data.length ≤ packedKeyBytes) :
    (data ++ zeros data).length = packedKeyBytes := by
  rw [List.length_append, zeros, List.length_replicate]
  omega

end Packing

section Grams

/-- As many codepoints, read from the start of a byte string, are the same codepoints. -/
theorem encode_start {a b : List Char} (same : a.length = b.length) {x y : List UInt8}
    (equal : encode a ++ x = encode b ++ y) : a = b := by
  induction a generalizing b with
  | nil => exact (List.eq_nil_of_length_eq_zero same.symm).symm
  | cons c a ih =>
    cases b with
    | nil => cases same
    | cons d b =>
      rw [encode_cons, encode_cons, List.append_assoc, List.append_assoc] at equal
      obtain ⟨rfl, rest⟩ := encodeChar_inj equal
      rw [ih (Nat.succ.inj same) rest]

theorem packed_injective {a b : List Char} (same : a.length = b.length)
    (short : (encode a).length ≤ packedKeyBytes) (short' : (encode b).length ≤ packedKeyBytes)
    (equal : gramKey (encode a) {} = gramKey (encode b) {}) : a = b := by
  have values := congrArg Uhugeint.value equal
  rw [packed_value short, packed_value short'] at values
  exact encode_start same (value_injective (by rw [padded_length short, padded_length short']) values)

theorem packed_lt {a b : List Char} (same : a.length = b.length)
    (short : (encode a).length ≤ packedKeyBytes) (short' : (encode b).length ≤ packedKeyBytes) :
    gramKey (encode a) {} < gramKey (encode b) {} ↔ encode a < encode b := by
  rw [uhugeint_value_lt, packed_value short, packed_value short',
    value_lt_iff (by rw [padded_length short, padded_length short'])]
  by_cases equal : a = b
  · subst equal
    exact iff_of_false (List.lt_irrefl _) (List.lt_irrefl _)
  · apply append_lt_append
    · intro c whole
      exact equal (encode_start same (whole.trans (List.append_nil _).symm))
    · intro c whole
      exact equal (encode_start same.symm (whole.trans (List.append_nil _).symm)).symm

/-- No byte of UTF-8 is 0xF8 or more; here for the first of a codepoint. -/
theorem first_byte_bound {c : Char} {byte : UInt8} {rest : List UInt8}
    (start : String.utf8EncodeChar c = byte :: rest) : byte.toNat < 0xF8 := by
  unfold String.utf8EncodeChar at start
  simp only at start
  split at start <;> [skip; split at start <;> [skip; split at start]] <;>
    obtain ⟨rfl, rfl⟩ := List.cons.inj start <;>
    simp only [UInt8.toNat_ofNat'] <;> omega

theorem packed_upper {a : List Char} (short : (encode a).length ≤ packedKeyBytes) :
    (gramKey (encode a) {}).upper.toNat < 0xF8 * 256 ^ 7 := by
  have split : padded 0 (encode a) = (encode a).getD 0 0 :: (List.range' 1 7).map fun i => (encode a).getD i 0 := by
    simp [padded, List.range_eq_range', List.range'_succ]
  have head : ((encode a).getD 0 0).toNat < 0xF8 := by
    cases a with
    | nil => decide
    | cons c a =>
      cases start : String.utf8EncodeChar c with
      | nil => exact absurd start (encodeChar_ne_nil c)
      | cons byte rest =>
        rw [encode_cons, start]
        exact first_byte_bound start
  have rest := value_lt ((List.range' 1 7).map fun i => (encode a).getD i 0)
  rw [gramKey_packed short, packHalf_value, split, value_cons]
  simp only [List.length_map, List.length_range'] at rest ⊢
  omega

end Grams

section Spaces
variable {lower : Char → Nat} {options : GramOptions} {codepoints : List Char} {first finish : Nat}

inductive KeySpace
  | packed
  | hashed
  | bucket
  deriving DecidableEq

/-- Where TokenizedGramKey puts the key of a gram. -/
def keySpace (options : GramOptions) (scratch : GramScratch) (first finish : Nat) : KeySpace :=
  if options.tokenizer = .ngram ∨ finish - first = options.minGram then
    if (scratch.bytes first finish).length ≤ packedKeyBytes then .packed else .hashed
  else .bucket

def KeySpace.Holds : KeySpace → Uhugeint → Prop
  | .packed, key => key.upper.toNat < 0xF8 * 256 ^ 7
  | .hashed, key => key.upper = 0xFFFFFFFFFFFFFFFF
  | .bucket, key => key.upper = sparseBucketKeyUpper

theorem spaces_disjoint {s t : KeySpace} {key : Uhugeint} (left : s.Holds key) (right : t.Holds key) : s = t := by
  have ones : (0xFFFFFFFFFFFFFFFF : UInt64).toNat = 0xFFFFFFFFFFFFFFFF := rfl
  have bucket : sparseBucketKeyUpper.toNat = 0xFFFFFFFFFFFFFFFE := rfl
  cases s <;> cases t <;> simp only [KeySpace.Holds, ← UInt64.toNat_inj, ones, bucket] at left right <;>
    first | rfl | omega

theorem key_in_space (order : first ≤ finish) (inside : finish ≤ codepoints.length) :
    (keySpace options (scratchOf codepoints) first finish).Holds
      (tokenizedGramKey options (scratchOf codepoints) first finish {}) := by
  unfold keySpace tokenizedGramKey
  simp only
  split
  · rw [scratch_bytes order inside]
    split
    · rename_i short
      exact packed_upper short
    · rename_i long
      rw [gramKey_hashed long]
      rfl
  · exact and_ones _

/-- A packed gram has min_gram codepoints, and its bytes make up its key. -/
theorem packed_gram (gram : IsGram options codepoints first finish)
    (packed : keySpace options (scratchOf codepoints) first finish = .packed) :
    (encode (slice codepoints first finish)).length ≤ packedKeyBytes ∧
      (slice codepoints first finish).length = options.minGram ∧
      tokenizedGramKey options (scratchOf codepoints) first finish {} =
        gramKey (encode (slice codepoints first finish)) {} := by
  have order := gram_order gram
  have inside := gram.1
  unfold keySpace at packed
  rw [scratch_bytes order inside] at packed
  split at packed
  · rename_i direct
    split at packed
    · rename_i short
      refine ⟨short, ?_, ?_⟩
      · rw [slice_length inside]
        rcases direct with ngram | same
        · have shape := gram.2
          rw [ngram] at shape
          simp only at shape
          omega
        · exact same
      · unfold tokenizedGramKey
        simp only
        rw [if_pos direct, scratch_bytes order inside]
    · cases packed
  · cases packed

/-- Two grams of one index share a packed key only when they are the same gram. -/
theorem packed_gram_alone {other : List Char} {i j : Nat} (gram : IsGram options codepoints first finish)
    (packed : keySpace options (scratchOf codepoints) first finish = .packed) (gram' : IsGram options other i j)
    (same : tokenizedGramKey options (scratchOf codepoints) first finish {} =
      tokenizedGramKey options (scratchOf other) i j {}) : slice codepoints first finish = slice other i j := by
  have left := @key_in_space options _ _ _ (gram_order gram) gram.1
  have right := @key_in_space options _ _ _ (gram_order gram') gram'.1
  rw [same] at left
  have packed' := (spaces_disjoint left right).symm.trans packed
  obtain ⟨short, count, key⟩ := packed_gram gram packed
  obtain ⟨short', count', key'⟩ := packed_gram gram' packed'
  exact packed_injective (count.trans count'.symm) short short' (key.symm.trans (same.trans key'))

theorem slice_key_same {other : List Char} {i j : Nat} (gram : IsGram options codepoints first finish)
    (gram' : IsGram options other i j) (same : slice codepoints first finish = slice other i j) (mask : GramKeyMask) :
    tokenizedGramKey options (scratchOf codepoints) first finish mask =
      tokenizedGramKey options (scratchOf other) i j mask := by
  have width := congrArg List.length same
  rw [slice_length gram.1, slice_length gram'.1] at width
  rw [slice_key (gram_order gram) gram.1, slice_key (gram_order gram') gram'.1, same, width]

def HoldsGram (lower : Char → Nat) (options : GramOptions) (gram : List Char) (text : String) : Prop :=
  ∃ r ∈ gramRanges (scratchOf (normalize lower options text.toList)) options,
    slice (normalize lower options text.toList) r.1 r.2 = gram

theorem packed_key_stored {fn : String} (valid : validateGramOptions options fn = .ok ())
    (gram : IsGram options codepoints first finish)
    (packed : keySpace options (scratchOf codepoints) first finish = .packed) (text : String) :
    tokenizedGramKey options (scratchOf codepoints) first finish {} ∈ storedKeys lower {} options text ↔
      HoldsGram lower options (slice codepoints first finish) text := by
  have emitted := mem_gramRanges (valid_minGram valid) (normalize lower options text.toList)
  rw [mem_storedKeys valid]
  constructor
  · intro ⟨i, j, gram', same⟩
    exact ⟨(i, j), (emitted i j).mpr gram', (packed_gram_alone gram packed gram' same).symm⟩
  · intro ⟨(i, j), listed, same⟩
    have gram' := (emitted i j).mp listed
    exact ⟨i, j, gram', slice_key_same gram gram' same.symm _⟩

/-- Packed keys tell grams of one codepoint count apart and order as their bytes do, keys
    of different spaces differ, and what an index posts under a packed key are the rows
    that hold its gram, and no others. -/
theorem key_spaces_apart (lower : Char → Nat) :
    (∀ a b : List Char, a.length = b.length → (encode a).length ≤ packedKeyBytes →
      (encode b).length ≤ packedKeyBytes → (a ≠ b → gramKey (encode a) {} ≠ gramKey (encode b) {}) ∧
        (gramKey (encode a) {} < gramKey (encode b) {} ↔ encode a < encode b)) ∧
    (∀ (options options' : GramOptions) (fn : String), validateGramOptions options fn = .ok () →
      validateGramOptions options' fn = .ok () → ∀ codepoints codepoints' : List Char,
      ∀ r ∈ gramRanges (scratchOf codepoints) options, ∀ r' ∈ gramRanges (scratchOf codepoints') options',
      keySpace options (scratchOf codepoints) r.1 r.2 ≠ keySpace options' (scratchOf codepoints') r'.1 r'.2 →
      tokenizedGramKey options (scratchOf codepoints) r.1 r.2 {} ≠
        tokenizedGramKey options' (scratchOf codepoints') r'.1 r'.2 {}) ∧
    ∀ (options : GramOptions) (fn : String), validateGramOptions options fn = .ok () →
      ∀ codepoints : List Char, ∀ r ∈ gramRanges (scratchOf codepoints) options,
      keySpace options (scratchOf codepoints) r.1 r.2 = .packed →
      (∀ text, tokenizedGramKey options (scratchOf codepoints) r.1 r.2 {} ∈ storedKeys lower {} options text ↔
        HoldsGram lower options (slice codepoints r.1 r.2) text) ∧
      ∀ (base : List (BaseRow String)) (lo hi : Int) (partitions : Nat) (openEnded : Bool), hi < maxRowId →
        ∀ rowid, Posted (packRanges (storedKeys lower {} options) base
            (segmentAlignedRanges lo hi partitions openEnded))
          (tokenizedGramKey options (scratchOf codepoints) r.1 r.2 {}) rowid →
        ∃ row ∈ base, ∃ text, row.rowid = rowid ∧ row.value = some text ∧
          HoldsGram lower options (slice codepoints r.1 r.2) text := by
  refine ⟨?_, ?_, ?_⟩
  · intro a b same short short'
    exact ⟨fun other equal => other (packed_injective same short short' equal), packed_lt same short short'⟩
  · intro options options' fn valid valid' codepoints codepoints' r listed r' listed' other equal
    have gram := (mem_gramRanges (valid_minGram valid) codepoints r.1 r.2).mp listed
    have gram' := (mem_gramRanges (valid_minGram valid') codepoints' r'.1 r'.2).mp listed'
    have left := @key_in_space options _ _ _ (gram_order gram) gram.1
    have right := @key_in_space options' _ _ _ (gram_order gram') gram'.1
    exact other (spaces_disjoint left (equal ▸ right))
  · intro options fn valid codepoints r listed packed
    have gram := (mem_gramRanges (valid_minGram valid) codepoints r.1 r.2).mp listed
    have stored := @packed_key_stored lower _ _ _ _ _ valid gram packed
    refine ⟨stored, ?_⟩
    intro base lo hi partitions openEnded space rowid posted
    obtain ⟨range, _, pair⟩ := (packRanges_posted (fun range in_ranges => by
      have reach := (segmentAlignedRanges_inside range in_ranges).2
      split at reach <;> omega)).mp posted
    obtain ⟨row, present, text, same, value, in_text, _⟩ := mem_rangePairs.mp pair
    exact ⟨row, present, text, same, value, (stored text).mp in_text⟩

/-- A NUL codepoint beside the zero padding: the shorter gram's key is the one of "ab" padded,
    and the index keeps the longer gram to itself. -/
theorem nul_gram_alone : gramKey (encode ['a', 'b', '\x00']) {} = gramKey (encode ['a', 'b']) {} ∧
    gramKey (encode ['a', 'b', '\x00']) {} < gramKey (encode ['a', 'b', '\x01']) {} ∧
    tokenizedGramKey ⟨.ngram, 3, 3, false⟩ (scratchOf ['a', 'b', 'c']) 0 3 {} ≠
      tokenizedGramKey ⟨.ngram, 5, 5, false⟩ (scratchOf ['😀', '😀', '😀', '😀', '😀']) 0 5 {} ∧
    ∀ text, gramKey (encode ['a', 'b', '\x00']) {} ∈ storedKeys Char.toNat {} ⟨.ngram, 3, 3, false⟩ text ↔
      HoldsGram Char.toNat ⟨.ngram, 3, 3, false⟩ ['a', 'b', '\x00'] text := by
  refine ⟨by decide +kernel, ?_, ?_, ?_⟩
  · exact ((key_spaces_apart Char.toNat).1 ['a', 'b', '\x00'] ['a', 'b', '\x01'] rfl
      (by decide +kernel) (by decide +kernel)).2.mpr (by decide +kernel)
  · exact (key_spaces_apart Char.toNat).2.1 ⟨.ngram, 3, 3, false⟩ ⟨.ngram, 5, 5, false⟩ "ngram" rfl rfl
      ['a', 'b', 'c'] ['😀', '😀', '😀', '😀', '😀'] (0, 3) (by decide +kernel) (0, 5) (by decide +kernel)
      (by decide +kernel)
  · exact ((key_spaces_apart Char.toNat).2.2 ⟨.ngram, 3, 3, false⟩ "ngram" rfl ['a', 'b', '\x00']
      (0, 3) (by decide +kernel) (by decide +kernel)).1

end Spaces

end NgramGram
