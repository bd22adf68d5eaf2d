import NgramIndex.BigEndian
import NgramIndex.SparseGrams
import NgramIndex.WordMixing

/- The weights of the windows of two codepoints. The finalizer loses nothing of a
   word, and the word of a window nothing of its two codepoints. -/
namespace NgramGram
open Utf8 BigEndian WordMixing

section Finalizer

/-- The finalizer's rounds, its multiplications undone last to first. -/
def fmix64Inverse (value : UInt64) : UInt64 :=
  let value := value ^^^ (value >>> 33)
  let value := value * 0x9cb4b2f8129337db
  let value := value ^^^ (value >>> 33)
  let value := value * 0x4f74430c22a54005
  value ^^^ (value >>> 33)

def multipliers : List (BitVec 64) := [0xff51afd7ed558ccd#64, 0xc4ceb9fe1a85ec53#64]

def inverseMultipliers : List (BitVec 64) := [0x4f74430c22a54005#64, 0x9cb4b2f8129337db#64]

theorem fmix64_mix (value : UInt64) : (fmix64 value).toBitVec = mix 33 multipliers value.toBitVec := rfl

theorem fmix64Inverse_mix (value : UInt64) :
    (fmix64Inverse value).toBitVec = mix 33 inverseMultipliers.reverse value.toBitVec := rfl

theorem multipliers_units : List.Forall₂ (fun unit inverse => unit * inverse = 1#64) multipliers inverseMultipliers :=
  .cons (by decide) (.cons (by decide) .nil)

theorem fmix64_undone (value : UInt64) : fmix64Inverse (fmix64 value) = value := by
  apply UInt64.toBitVec_inj.mp
  rw [fmix64Inverse_mix, fmix64_mix]
  exact mix_undone (by decide) multipliers_units _

theorem fmix64_bijective : Function.Bijective fmix64 := by
  have words : fmix64 = UInt64.ofBitVec ∘ mix 33 multipliers ∘ UInt64.toBitVec := rfl
  have mixes := mix_bijective (s := 33) (by decide) multipliers_units
  refine ⟨Function.LeftInverse.injective fmix64_undone, fun weight => ?_⟩
  obtain ⟨word, mixed⟩ := mixes.surjective weight.toBitVec
  refine ⟨UInt64.ofBitVec word, ?_⟩
  rw [words, Function.comp_apply, Function.comp_apply, UInt64.toBitVec_ofBitVec, mixed]

end Finalizer

section Packing

def packBytes (bytes : List UInt8) : UInt64 := bytes.foldl (fun word byte => (word <<< 8) ||| byte.toUInt64) 0

theorem packBytes_concat (bytes : List UInt8) (byte : UInt8) :
    packBytes (bytes ++ [byte]) = (packBytes bytes <<< 8) ||| byte.toUInt64 := by
  rw [packBytes, List.foldl_append]
  rfl

theorem packBytes_value {bytes : List UInt8} (short : bytes.length ≤ 8) :
    (packBytes bytes).toNat = value bytes := by
  induction bytes using List.reverseRecOn with
  | nil => rfl
  | append_singleton bytes byte ih =>
    rw [List.length_append, List.length_singleton] at short
    have before := ih (Nat.le_of_succ_le short)
    have room : value bytes * 2 ^ 8 < 2 ^ 64 := by
      have bound := value_lt bytes
      have most : (256 : Nat) ^ bytes.length ≤ 256 ^ 7 := Nat.pow_le_pow_right (by decide) (by omega)
      omega
    have shifted : (packBytes bytes <<< 8).toNat = value bytes * 2 ^ 8 := by
      rw [UInt64.toNat_shiftLeft, before, Nat.shiftLeft_eq]
      exact Nat.mod_eq_of_lt room
    rw [packBytes_concat, value_concat, UInt64.toNat_or, shifted, UInt8.toNat_toUInt64, Nat.mul_comm,
      ← Nat.two_pow_add_eq_or_of_lt byte.toNat_lt]
    ring

theorem codepoint_value_lt (c : Char) : value (String.utf8EncodeChar c) < 2 ^ 32 := by
  have wide : (String.utf8EncodeChar c).length ≤ 4 := by
    rw [String.length_utf8EncodeChar]
    exact c.utf8Size_le_four
  exact (value_lt _).trans_le (Nat.pow_le_pow_right (by decide) wide)

/-- Only a codepoint of one byte starts with a byte below 0x80, so a shorter
    encoding is a smaller number. -/
theorem codepoint_value_short {c d : Char}
    (shorter : (String.utf8EncodeChar c).length < (String.utf8EncodeChar d).length) :
    value (String.utf8EncodeChar c) < value (String.utf8EncodeChar d) := by
  cases start : String.utf8EncodeChar d with
  | nil => exact absurd start (encodeChar_ne_nil d)
  | cons byte rest =>
    rw [start, List.length_cons] at shorter
    have leads : byte ≠ 0 := by
      rintro rfl
      have one := encodeChar_ascii ((first_byte_ascii start).mp (by decide))
      rw [start] at one
      have alone : rest = [] := (List.cons.inj one).2
      have wide := List.length_pos_iff.mpr (encodeChar_ne_nil c)
      rw [alone, List.length_nil] at shorter
      omega
    calc value (String.utf8EncodeChar c)
        < 256 ^ (String.utf8EncodeChar c).length := value_lt _
      _ ≤ 256 ^ rest.length := Nat.pow_le_pow_right (by decide) (Nat.le_of_lt_succ shorter)
      _ ≤ value (byte :: rest) := value_long rest leads

theorem codepoint_value_injective {c d : Char}
    (same : value (String.utf8EncodeChar c) = value (String.utf8EncodeChar d)) : c = d := by
  rcases Nat.lt_trichotomy (String.utf8EncodeChar c).length (String.utf8EncodeChar d).length with less | equal | more
  · exact absurd same (codepoint_value_short less).ne
  · have bytes := value_injective equal same
    exact (encodeChar_inj (congrArg (· ++ []) bytes)).1
  · exact absurd same (codepoint_value_short more).ne'

end Packing

section Windows
variable {codepoints other : List Char} {i j : Nat}

theorem slice_one (inside : i < codepoints.length) : slice codepoints i (i + 1) = [codepoints[i]] := by
  rw [slice, Nat.add_sub_cancel_left, List.drop_eq_getElem_cons inside]
  rfl

theorem slice_two (inside : i + 1 < codepoints.length) :
    slice codepoints i (i + 2) = [codepoints[i], codepoints[i + 1]] := by
  rw [slice, Nat.add_sub_cancel_left, List.drop_eq_getElem_cons (Nat.lt_of_succ_lt inside),
    List.drop_eq_getElem_cons inside]
  rfl

theorem packed_value_at (inside : i < codepoints.length) :
    (packed (scratchOf codepoints) i).toNat = value (String.utf8EncodeChar codepoints[i]) := by
  have loop : packed (scratchOf codepoints) i = packBytes ((scratchOf codepoints).bytes i (i + 1)) := rfl
  rw [loop, scratch_bytes (Nat.le_succ i) inside, slice_one inside, encode_cons, encode_nil, List.append_nil]
  refine packBytes_value (Nat.le_trans ?_ (by decide : 4 ≤ 8))
  rw [String.length_utf8EncodeChar]
  exact Char.utf8Size_le_four _

theorem window_word (inside : i + 1 < codepoints.length) :
    ((packed (scratchOf codepoints) i <<< 32) ||| packed (scratchOf codepoints) (i + 1)).toNat =
      value (String.utf8EncodeChar codepoints[i]) * 2 ^ 32 + value (String.utf8EncodeChar codepoints[i + 1]) := by
  have high := codepoint_value_lt codepoints[i]
  have low := codepoint_value_lt codepoints[i + 1]
  rw [UInt64.toNat_or, UInt64.toNat_shiftLeft, packed_value_at inside, packed_value_at (Nat.lt_of_succ_lt inside),
    Nat.shiftLeft_eq]
  rw [show (32 : UInt64).toNat % 64 = 32 from rfl, Nat.mod_eq_of_lt (by omega), Nat.mul_comm,
    ← Nat.two_pow_add_eq_or_of_lt low]

theorem window_weight : sparseWindowWeight (scratchOf codepoints) i 2 =
    fmix64 ((packed (scratchOf codepoints) i <<< 32) ||| packed (scratchOf codepoints) (i + 1)) := rfl

theorem window_weight_iff (inside : i + 1 < codepoints.length) (inside' : j + 1 < other.length) :
    sparseWindowWeight (scratchOf codepoints) i 2 = sparseWindowWeight (scratchOf other) j 2 ↔
      codepoints[i] = other[j] ∧ codepoints[i + 1] = other[j + 1] := by
  rw [window_weight, window_weight, fmix64_bijective.injective.eq_iff, ← UInt64.toNat_inj, window_word inside,
    window_word inside']
  constructor
  · intro same
    have low := codepoint_value_lt codepoints[i + 1]
    have low' := codepoint_value_lt other[j + 1]
    constructor
    · apply codepoint_value_injective
      omega
    · apply codepoint_value_injective
      omega
  · rintro ⟨first, second⟩
    rw [first, second]

theorem window_bytes (inside : i + 1 < codepoints.length) : (scratchOf codepoints).bytes i (i + 2) =
    String.utf8EncodeChar codepoints[i] ++ String.utf8EncodeChar codepoints[i + 1] := by
  rw [scratch_bytes (Nat.le_add_right i 2) inside, slice_two inside, encode_cons, encode_cons, encode_nil,
    List.append_nil]

theorem window_bytes_iff (inside : i + 1 < codepoints.length) (inside' : j + 1 < other.length) :
    (scratchOf codepoints).bytes i (i + 2) = (scratchOf other).bytes j (j + 2) ↔
      codepoints[i] = other[j] ∧ codepoints[i + 1] = other[j + 1] := by
  rw [window_bytes inside, window_bytes inside']
  constructor
  · intro same
    obtain ⟨first, rest⟩ := encodeChar_inj same
    exact ⟨first, (encodeChar_inj (congrArg (· ++ []) rest)).1⟩
  · rintro ⟨first, second⟩
    rw [first, second]

/-- The finalizer is a bijection, so the windows of an index of min_gram 3 tie, in one
    text or in two, exactly where their bytes are the same. -/
theorem window_weights_apart (lower : Char → Nat) :
    Function.Bijective fmix64 ∧
    (∀ a b c d : Char, codepointsWeight 3 [a, b] = codepointsWeight 3 [c, d] ↔ a = c ∧ b = d) ∧
    ∀ options options' : GramOptions, options.minGram = 3 → options'.minGram = 3 →
      ∀ data data' scratch scratch', normalizeString lower data options = .ok scratch →
        normalizeString lower data' options' = .ok scratch' →
        ∀ i j, i + (options.minGram - 1) < scratch.offsets.length → j + (options'.minGram - 1) < scratch'.offsets.length →
          (sparseWindowWeight scratch i (options.minGram - 1) = sparseWindowWeight scratch' j (options'.minGram - 1) ↔
            scratch.bytes i (i + (options.minGram - 1)) = scratch'.bytes j (j + (options'.minGram - 1))) := by
  refine ⟨fmix64_bijective, fun a b c d => ?_, ?_⟩
  · exact @window_weight_iff [a, b] [c, d] 0 0 (Nat.lt_succ_self 1) (Nat.lt_succ_self 1)
  · intro options options' three three' data data' scratch scratch' run run' i j inside inside'
    obtain ⟨text, _, rfl⟩ := normalizeString_ok run
    obtain ⟨text', _, rfl⟩ := normalizeString_ok run'
    simp only [three, three', scratchOf, boundaries_length] at inside inside' ⊢
    have window := Nat.succ_lt_succ_iff.mp inside
    have window' := Nat.succ_lt_succ_iff.mp inside'
    exact (window_weight_iff window window').trans (window_bytes_iff window window').symm

/-- A text of codepoints of one to four bytes, one of whose windows comes twice. -/
theorem repeated_window_ties : ∃ scratch,
    normalizeString Char.toNat (encode ['a', 'é', '€', '𝄞', 'a', 'é']) ⟨.sparse, 3, 8, true⟩ = .ok scratch ∧
      sparseWindowWeight scratch 0 2 = sparseWindowWeight scratch 4 2 ∧
      ∀ j ∈ [1, 2, 3], sparseWindowWeight scratch 0 2 ≠ sparseWindowWeight scratch j 2 := by
  have run := @normalizeString_encode Char.toNat ⟨.sparse, 3, 8, true⟩ ['a', 'é', '€', '𝄞', 'a', 'é']
  have apart := (window_weights_apart Char.toNat).2.2 _ _ rfl rfl _ _ _ _ run run 0
  refine ⟨_, run, (apart 4 (by decide) (by decide)).mpr (by decide), ?_⟩
  simp only [List.forall_mem_cons, List.not_mem_nil, false_implies, implies_true, and_true]
  refine ⟨?_, ?_, ?_⟩
  · exact fun tie => absurd ((apart 1 (by decide) (by decide)).mp tie) (by decide)
  · exact fun tie => absurd ((apart 2 (by decide) (by decide)).mp tie) (by decide)
  · exact fun tie => absurd ((apart 3 (by decide) (by decide)).mp tie) (by decide)

end Windows
end NgramGram
