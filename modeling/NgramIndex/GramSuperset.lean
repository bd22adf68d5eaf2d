import NgramIndex.Gram

/- No false negatives: a gram of a needle, found where the needle occurs, is a
   gram of the text with the same key. Grams and keys are read off the
   codepoints inside a range alone. -/
namespace NgramGram
open AscendingLists Fallible MonotoneStack Utf8
variable {lower : Char → Nat} {options : GramOptions} {mask : GramKeyMask}

section Normalize

def foldCodepoint (lower : Char → Nat) (options : GramOptions) (c : Char) : Char :=
  if options.caseInsensitive then
    if c.toNat < 0x80 then Char.ofUInt8 (asciiToLower c.toUInt8)
    else if (lower c).isValidChar then Char.ofNat (lower c) else c
  else c

def normalize (lower : Char → Nat) (options : GramOptions) (text : List Char) : List Char :=
  text.map (foldCodepoint lower options)

/-- What normalizing leaves when it yields these codepoints. -/
def scratchOf (codepoints : List Char) : GramScratch := ⟨encode codepoints, boundaries codepoints⟩

theorem encodeChar_ascii {c : Char} (ascii : c.toNat < 0x80) :
    String.utf8EncodeChar c = [c.toUInt8] := by
  have small : c.toNat ≤ 127 := Nat.le_of_lt_succ ascii
  simp [String.utf8EncodeChar, Char.toUInt8, UInt32.toUInt8, Nat.not_lt.mpr small]

theorem encodeChar_ofUInt8 {byte : UInt8} (ascii : byte < 0x80) :
    String.utf8EncodeChar (Char.ofUInt8 byte) = [byte] := by
  have small : byte.toNat ≤ 127 := Nat.le_of_lt_succ (UInt8.lt_iff_toNat_lt.mp ascii)
  have number : (Char.ofUInt8 byte).val.toNat = byte.toNat := rfl
  simp [String.utf8EncodeChar, number, small]

theorem first_byte_ascii {c : Char} {byte : UInt8} {rest : List UInt8}
    (start : String.utf8EncodeChar c = byte :: rest) : byte < 0x80 ↔ c.toNat < 0x80 := by
  have value : c.toNat = c.val.toNat := rfl
  have bound : c.val.toNat < 0x110000 := by
    rcases c.valid with low | ⟨_, high⟩
    · exact low.trans (by decide)
    · exact high
  rw [UInt8.lt_iff_toNat_lt, value]
  unfold String.utf8EncodeChar at start
  simp only at start
  split at start <;> [skip; split at start <;> [skip; split at start]] <;>
    obtain ⟨rfl, rfl⟩ := List.cons.inj start <;>
    simp only [UInt8.toNat_ofNat', UInt8.reduceToNat] <;> omega

theorem asciiToLower_ascii {byte : UInt8} (ascii : byte < 0x80) : asciiToLower byte < 0x80 := by
  unfold asciiToLower
  split
  · rename_i upper
    have high := UInt8.le_iff_toNat_le.mp upper.2
    rw [UInt8.lt_iff_toNat_lt, UInt8.toNat_add]
    simp only [UInt8.reduceToNat] at *
    omega
  · exact ascii

theorem toLower_high {c : Char} (high : 0x80 ≤ c.toNat) : c.toLower = c := by
  unfold Char.toLower
  split
  · rename_i upper
    have low : c.toNat ≤ 'Z'.toNat := upper.2
    have bound : 'Z'.toNat = 90 := rfl
    omega
  · rfl

/-- One step of the loop: a codepoint is read and its normal form written. -/
theorem normalizeFrom_cons (c : Char) (data : List UInt8) (scratch : GramScratch) :
    normalizeFrom lower options (String.utf8EncodeChar c ++ data) scratch =
      normalizeFrom lower options data
        ⟨scratch.normalized ++ String.utf8EncodeChar (foldCodepoint lower options c),
          scratch.offsets ++ [scratch.normalized.length]⟩ := by
  cases start : String.utf8EncodeChar c with
  | nil => exact absurd start (encodeChar_ne_nil c)
  | cons byte rest =>
    have ascii := first_byte_ascii start
    rw [List.cons_append, normalizeFrom]
    by_cases small : byte < 0x80
    · have one := encodeChar_ascii (ascii.mp small)
      obtain ⟨rfl, rfl⟩ := List.cons.inj (start.symm.trans one)
      rw [if_pos small]
      cases insensitive : options.caseInsensitive
      · simp [foldCodepoint, insensitive, start]
      · simp [foldCodepoint, insensitive, ascii.mp small,
          encodeChar_ofUInt8 (asciiToLower_ascii small)]
    · have large : ¬ c.toNat < 0x80 := fun less => small (ascii.mpr less)
      have decoded : decodeFirst (byte :: (rest ++ data)) = some c := by
        rw [← List.cons_append, ← start]
        exact decodeFirst_encode c data
      have size : c.utf8Size = rest.length + 1 := by
        rw [← String.length_utf8EncodeChar, start, List.length_cons]
      have taken : (byte :: (rest ++ data)).take c.utf8Size = String.utf8EncodeChar c := by
        rw [size, start, List.take_succ_cons, List.take_left]
      have folded : foldedBytes lower options c (String.utf8EncodeChar c) =
          String.utf8EncodeChar (foldCodepoint lower options c) := by
        unfold foldedBytes foldCodepoint codepointToUtf8
        cases options.caseInsensitive
        · have valid : c.toNat.isValidChar := c.valid
          simp [valid]
        · by_cases valid : (lower c).isValidChar <;> simp [large, valid]
      have dropped : (rest ++ data).drop (c.utf8Size - 1) = data := by
        rw [size, Nat.add_sub_cancel, List.drop_left]
      rw [if_neg small, decoded]
      simp only [taken, folded, dropped]

theorem normalizeFrom_encode (text : List Char) (scratch : GramScratch) :
    normalizeFrom lower options (encode text) scratch =
      .ok ⟨scratch.normalized ++ encode (normalize lower options text), scratch.offsets ++
        (boundaries (normalize lower options text)).map (scratch.normalized.length + ·)⟩ := by
  induction text generalizing scratch with
  | nil => simp [normalizeFrom, normalize, boundaries_nil]
  | cons c text ih =>
    rw [encode_cons, normalizeFrom_cons, ih]
    simp [normalize, boundaries_cons, Function.comp_def, Nat.add_assoc]

theorem normalizeString_encode (text : List Char) :
    normalizeString lower (encode text) options = .ok (scratchOf (normalize lower options text)) := by
  unfold normalizeString
  rw [normalizeFrom_encode]
  simp [scratchOf]

theorem normalizeFrom_accepts {data : List UInt8} {scratch result : GramScratch}
    (run : normalizeFrom lower options data scratch = .ok result) : ∃ text, data = encode text := by
  cases data with
  | nil => exact ⟨[], rfl⟩
  | cons byte rest =>
    obtain ⟨c, after, whole⟩ : ∃ c after, byte :: rest = String.utf8EncodeChar c ++ after := by
      by_cases small : byte < 0x80
      · refine ⟨Char.ofUInt8 byte, rest, ?_⟩
        rw [encodeChar_ofUInt8 small, List.singleton_append]
      · rw [normalizeFrom, if_neg small] at run
        cases read : decodeFirst (byte :: rest) with
        | none => simp [read] at run
        | some c => exact ⟨c, decodeFirst_some read⟩
    have shorter : after.length < rest.length + 1 := by
      have length := congrArg List.length whole
      have wide := List.length_pos_iff.mpr (encodeChar_ne_nil c)
      rw [List.length_cons, List.length_append] at length
      omega
    rw [whole, normalizeFrom_cons] at run
    obtain ⟨text, rfl⟩ := normalizeFrom_accepts run
    exact ⟨c :: text, whole⟩
  termination_by data.length

theorem normalizeString_ok {data : List UInt8} {scratch : GramScratch}
    (run : normalizeString lower data options = .ok scratch) :
    ∃ text, data = encode text ∧ scratch = scratchOf (normalize lower options text) := by
  obtain ⟨text, rfl⟩ := normalizeFrom_accepts run
  rw [normalizeString_encode] at run
  exact ⟨text, rfl, (Fallible.ok_inj run).symm⟩

theorem normalize_append (a b : List Char) :
    normalize lower options (a ++ b) = normalize lower options a ++ normalize lower options b :=
  List.map_append

end Normalize

section Local

theorem scratch_bytes {codepoints : List Char} {first finish : Nat} (order : first ≤ finish)
    (inside : finish ≤ codepoints.length) :
    (scratchOf codepoints).bytes first finish = encode (slice codepoints first finish) := by
  unfold GramScratch.bytes scratchOf
  rw [boundaries_at inside, boundaries_at (order.trans inside), encode_slice order]

theorem slice_bytes {codepoints : List Char} {first finish i j : Nat} (order : i ≤ j)
    (within : first + j ≤ finish) (inside : finish ≤ codepoints.length) :
    (scratchOf codepoints).bytes (first + i) (first + j) =
      (scratchOf (slice codepoints first finish)).bytes i j := by
  have short : j ≤ (slice codepoints first finish).length := by
    rw [slice_length inside]
    omega
  rw [scratch_bytes (by omega) (by omega), scratch_bytes order short, slice_slice within]

theorem slice_packed {codepoints : List Char} {first finish i : Nat}
    (within : first + i < finish) (inside : finish ≤ codepoints.length) :
    packed (scratchOf codepoints) (first + i) = packed (scratchOf (slice codepoints first finish)) i := by
  unfold packed
  rw [Nat.add_assoc, slice_bytes (Nat.le_succ i) within inside]

theorem slice_weight {codepoints : List Char} {first finish i count : Nat} (window : 2 ≤ count)
    (within : first + (i + count) ≤ finish) (inside : finish ≤ codepoints.length) :
    sparseWindowWeight (scratchOf codepoints) (first + i) count =
      sparseWindowWeight (scratchOf (slice codepoints first finish)) i count := by
  unfold sparseWindowWeight
  rw [Nat.add_assoc first i 1, slice_packed (by omega) inside, slice_packed (by omega) inside]
  apply List.foldl_ext
  intro weight k present
  have bound := (List.mem_range'_1.mp present).2
  rw [Nat.add_assoc, slice_packed (by omega) inside]

theorem slice_key {codepoints : List Char} {first finish : Nat} (order : first ≤ finish)
    (inside : finish ≤ codepoints.length) :
    tokenizedGramKey options (scratchOf codepoints) first finish mask =
      tokenizedGramKey options (scratchOf (slice codepoints first finish)) 0 (finish - first) mask := by
  have bytes := @slice_bytes codepoints first finish 0 (finish - first) (Nat.zero_le _) (by omega) inside
  rw [Nat.add_zero, Nat.add_sub_cancel' order] at bytes
  unfold tokenizedGramKey
  rw [bytes, Nat.sub_zero]

/-- The ranges the extractor emits. -/
def IsGram (options : GramOptions) (codepoints : List Char) (first finish : Nat) : Prop :=
  finish ≤ codepoints.length ∧
    match options.tokenizer with
    | .ngram => finish = first + options.minGram
    | .sparse => finish ≤ first + options.maxGram ∧ ∃ right, finish = right + (options.minGram - 1) ∧
        Framed (fun i => sparseWindowWeight (scratchOf codepoints) i (options.minGram - 1)) first right

theorem mem_gramRanges (valid : 1 ≤ options.minGram) (codepoints : List Char) (first finish : Nat) :
    (first, finish) ∈ gramRanges (scratchOf codepoints) options ↔
      IsGram options codepoints first finish := by
  have count : (scratchOf codepoints).offsets.length - 1 = codepoints.length := by
    simp [scratchOf]
  unfold gramRanges IsGram
  rw [count]
  cases tokenizer : options.tokenizer with
  | ngram =>
    by_cases short : codepoints.length < options.minGram
    · simp only [if_pos short, List.not_mem_nil, false_iff]
      omega
    · simp only [if_neg short, List.mem_map, List.mem_range, Prod.mk.injEq]
      constructor
      · rintro ⟨i, inside, rfl, rfl⟩
        omega
      · intro ⟨inside, same⟩
        exact ⟨first, by omega, rfl, same.symm⟩
  | sparse =>
    simp only
    by_cases short : codepoints.length < options.minGram
    · simp only [if_pos short, List.not_mem_nil, false_iff]
      rintro ⟨inside, _, right, rfl, before, _⟩
      omega
    · rw [if_neg short, scan_pairs]
      constructor
      · rintro ⟨right, inside, rfl, framed, reach⟩
        exact ⟨by omega, by omega, right, rfl, framed⟩
      · rintro ⟨inside, reach, right, rfl, framed⟩
        exact ⟨right, by omega, rfl, framed, by omega⟩

theorem gram_of_slice {fn : String} (valid : validateGramOptions options fn = .ok ())
    {codepoints : List Char} {first finish : Nat} (order : first ≤ finish)
    (inside : finish ≤ codepoints.length) :
    IsGram options codepoints first finish ↔
      IsGram options (slice codepoints first finish) 0 (finish - first) := by
  unfold validateGramOptions at valid
  unfold IsGram
  rw [slice_length inside]
  cases tokenizer : options.tokenizer with
  | ngram =>
    simp only
    omega
  | sparse =>
    rw [tokenizer] at valid
    have three : ¬ options.minGram < 3 := (check_ok valid).1
    simp only
    generalize spans : options.minGram - 1 = span
    have shifted : ∀ right, first + right + span ≤ finish →
        (Framed (fun i => sparseWindowWeight (scratchOf codepoints) i span) first (first + right) ↔
          Framed (fun i => sparseWindowWeight (scratchOf (slice codepoints first finish)) i span)
            0 right) := by
      intro right within
      apply @framed_shift _ _ _ _ 0 right first
      intro i _ before
      exact slice_weight (by omega) (by omega) inside
    constructor
    · rintro ⟨_, reach, right, rfl, framed⟩
      obtain ⟨distance, rfl⟩ : ∃ distance, right = first + distance :=
        ⟨right - first, (Nat.add_sub_cancel' framed.1.le).symm⟩
      exact ⟨le_rfl, by omega, distance, by omega, (shifted distance (by omega)).mp framed⟩
    · rintro ⟨_, reach, right, same, framed⟩
      exact ⟨inside, by omega, first + right, by omega, (shifted right (by omega)).mpr framed⟩

end Local
section Needle

theorem addAll_keys (maxKeys : Nat) (needle : NeedleKeys) (list : List Uhugeint) :
    ∀ key ∈ (needle.addAll maxKeys list).2.keys, key ∈ needle.keys ∨ key ∈ list := by
  induction list generalizing needle with
  | nil =>
    intro key present
    exact Or.inl present
  | cons first list ih =>
    intro key present
    unfold NeedleKeys.addAll NeedleKeys.add at present
    by_cases known : first ∈ needle.keys
    · rw [dif_pos known] at present
      rcases ih needle key present with old | later
      · exact Or.inl old
      · exact Or.inr (List.mem_cons_of_mem _ later)
    · rw [dif_neg known] at present
      by_cases full : needle.keys.length ≥ maxKeys
      · rw [if_pos full] at present
        exact Or.inl present
      · rw [if_neg full] at present
        rcases ih _ key present with grown | later
        · rcases List.mem_append.mp grown with old | added
          · exact Or.inl old
          · exact Or.inr (List.mem_cons.mpr (Or.inl (List.mem_singleton.mp added)))
        · exact Or.inr (List.mem_cons_of_mem _ later)

theorem keepCovering_subset (ranges covering : List (Nat × Nat)) :
    ∀ r ∈ ranges.foldl keepCovering covering, r ∈ covering ∨ r ∈ ranges := by
  induction ranges generalizing covering with
  | nil =>
    intro r kept
    exact Or.inl kept
  | cons range ranges ih =>
    intro r kept
    rcases ih _ r kept with before | later
    · rcases List.mem_cons.mp before with rfl | older
      · exact Or.inr List.mem_cons_self
      · exact Or.inl ((List.dropWhile_suffix _).subset older)
    · exact Or.inr (List.mem_cons_of_mem _ later)

theorem valid_minGram {fn : String} (valid : validateGramOptions options fn = .ok ()) :
    1 ≤ options.minGram := by
  unfold validateGramOptions at valid
  cases tokenizer : options.tokenizer with
  | ngram =>
    rw [tokenizer] at valid
    have passes := (check_ok valid).1
    omega
  | sparse =>
    rw [tokenizer] at valid
    have passes := (check_ok valid).1
    omega

theorem extractGramRanges_encode (text : List Char) :
    extractGramRanges lower (encode text) options =
      .ok (scratchOf (normalize lower options text),
        gramRanges (scratchOf (normalize lower options text)) options) :=
  bind_of_ok (normalizeString_encode text)

theorem decomposeNeedle_keys {fn : String} (valid : validateGramOptions options fn = .ok ())
    {needle : List Char} {maxKeys : Nat} {keys grown : NeedleKeys} {shape : NeedleShape}
    (run : decomposeNeedle lower mask (encode needle) options maxKeys keys = .ok (shape, grown)) :
    ∀ key ∈ grown.keys, key ∈ keys.keys ∨ ∃ first finish,
      IsGram options (normalize lower options needle) first finish ∧
      key = tokenizedGramKey options (scratchOf (normalize lower options needle)) first finish mask := by
  have member := mem_gramRanges (valid_minGram valid) (normalize lower options needle)
  unfold decomposeNeedle at run
  rcases branch_ok run with ⟨_, run⟩ | ⟨_, run⟩
  · cases ok_inj run
    intro key old
    exact Or.inl old
  · rw [bind_of_ok (extractGramRanges_encode needle)] at run
    simp only at run
    generalize gramRanges (scratchOf (normalize lower options needle)) options = ranges at run member
    cases tokenizer : options.tokenizer with
    | ngram =>
      rw [tokenizer] at run
      have yielded : grown = (keys.addAll maxKeys (ranges.map fun r =>
          gramKey ((scratchOf (normalize lower options needle)).bytes r.1 r.2) mask)).2 := by
        rcases branch_ok run with ⟨_, run⟩ | ⟨_, run⟩
        · exact (Prod.mk.inj (ok_inj run)).2.symm
        · exact (Prod.mk.inj (ok_inj run)).2.symm
      intro key present
      rw [yielded] at present
      rcases addAll_keys _ _ _ key present with old | added
      · exact Or.inl old
      · obtain ⟨⟨first, finish⟩, emitted, rfl⟩ := List.mem_map.mp added
        refine Or.inr ⟨first, finish, (member first finish).mp emitted, ?_⟩
        rw [tokenizedGramKey, if_pos (Or.inl tokenizer)]
    | sparse =>
      rw [tokenizer] at run
      rcases branch_ok run with ⟨_, run⟩ | ⟨_, run⟩
      · cases ok_inj run
        intro key old
        exact Or.inl old
      · have yielded := (Prod.mk.inj (ok_inj run)).2.symm
        intro key present
        rw [yielded] at present
        rcases addAll_keys _ _ _ key present with old | added
        · exact Or.inl old
        · obtain ⟨⟨first, finish⟩, kept, rfl⟩ := List.mem_map.mp added
          rcases keepCovering_subset ranges [] _ (List.mem_reverse.mp kept) with nothing | emitted
          · exact absurd nothing List.not_mem_nil
          · exact Or.inr ⟨first, finish, (member first finish).mp emitted, rfl⟩

theorem probeable_nonempty {fn : String} (valid : validateGramOptions options fn = .ok ())
    {needle : List Char} {maxKeys : Nat} {keys grown : NeedleKeys}
    (run : decomposeNeedle lower mask (encode needle) options maxKeys keys = .ok (.probeable, grown)) :
    needle ≠ [] := by
  have one := valid_minGram valid
  intro empty
  subst empty
  have nothing : gramRanges (scratchOf (normalize lower options [])) options = [] := by
    apply List.eq_nil_iff_forall_not_mem.mpr
    intro ⟨first, finish⟩ emitted
    have gram := (mem_gramRanges one _ first finish).mp emitted
    have short : finish ≤ 0 := gram.1
    have inside := gram.2
    cases tokenizer : options.tokenizer with
    | ngram =>
      rw [tokenizer] at inside
      simp only at inside
      omega
    | sparse =>
      rw [tokenizer] at inside
      obtain ⟨_, right, _, framed⟩ := inside
      have := framed.1
      omega
  unfold decomposeNeedle at run
  rcases branch_ok run with ⟨_, run⟩ | ⟨_, run⟩
  · cases ok_inj run
  · rw [bind_of_ok (extractGramRanges_encode [])] at run
    simp only [nothing] at run
    cases tokenizer : options.tokenizer with
    | ngram =>
      rw [tokenizer] at run
      rcases branch_ok run with ⟨_, run⟩ | ⟨_, run⟩
      · cases ok_inj run
      · cases ok_inj run
    | sparse =>
      rw [tokenizer] at run
      cases ok_inj run

end Needle

section Stored

theorem toNat_shiftRight_32 (value : UInt64) : (value >>> 32).toNat = value.toNat / 4294967296 := by
  rw [UInt64.toNat_shiftRight]
  simp only [UInt64.reduceToNat, Nat.shiftRight_eq_div_pow, Nat.reduceMod, Nat.reducePow]

theorem sortCode_shape {key : Uhugeint} (fits : sortCodeFits key) :
    (key.upper.toNat = 18446744073709551614 ∧ key.lower.toNat < 4294967296 ∧
        (sortCode key).toNat = 4294967296 + key.lower.toNat) ∨
      (key.upper.toNat ≤ 18446744069414584320 ∧ key.lower.toNat = 0 ∧
        key.upper.toNat = (sortCode key).toNat * 4294967296) := by
  obtain ⟨upper, low⟩ := key
  unfold sortCodeFits at fits
  simp only [decide_eq_true_eq] at fits
  unfold sortCode
  by_cases bucket : upper = sparseBucketKeyUpper
  · have small : low.toNat < 4294967296 := by
      rcases fits with ⟨zero, _⟩ | ⟨_, bound⟩
      · simp [zero]
      · have := UInt64.le_iff_toNat_le.mp bound
        simp only [UInt64.reduceToNat] at this
        omega
    refine Or.inl ⟨by rw [bucket]; rfl, small, ?_⟩
    simp only [bucket, if_true]
    rw [UInt64.toNat_add]
    simp only [UInt64.reduceToNat]
    omega
  · obtain ⟨zero, flat⟩ : low = 0 ∧ upper &&& 0xFFFFFFFF = 0 := by
      rcases fits with packed | ⟨same, _⟩
      · exact packed
      · exact absurd same bucket
    have aligned : upper.toNat % 4294967296 = 0 := by
      have masked := congrArg UInt64.toNat flat
      rw [UInt64.toNat_and] at masked
      simp only [UInt64.reduceToNat] at masked
      rwa [show (4294967295 : Nat) = 2 ^ 32 - 1 from rfl, Nat.and_two_pow_sub_one_eq_mod] at masked
    have bound : upper.toNat < 18446744073709551616 := upper.toNat_lt
    refine Or.inr ⟨by simp only; omega, by simp [zero], ?_⟩
    simp only [bucket, if_false]
    rw [toNat_shiftRight_32]
    omega

/-- A key that has a sort code is read back from it, whatever the mask left of it. -/
theorem fromSortCode_sortCode {key : Uhugeint} (fits : sortCodeFits key) :
    fromSortCode (sortCode key) = key := by
  have shape := sortCode_shape fits
  obtain ⟨upper, low⟩ := key
  simp only at shape
  unfold fromSortCode
  rcases shape with ⟨bucket, small, code⟩ | ⟨aligned, zero, code⟩
  · have high : sortCode ⟨upper, low⟩ >>> 32 ≠ 0 := by
      intro none_left
      have shifted := congrArg UInt64.toNat none_left
      rw [toNat_shiftRight_32, code, UInt64.toNat_zero] at shifted
      omega
    have above : (0x100000000 : UInt64) ≤ sortCode ⟨upper, low⟩ := by
      rw [UInt64.le_iff_toNat_le, code]
      exact Nat.le_add_right _ _
    have same_upper : sparseBucketKeyUpper = upper := UInt64.toNat_inj.mp bucket.symm
    have same_low : sortCode ⟨upper, low⟩ - 0x100000000 = low := by
      apply UInt64.toNat_inj.mp
      rw [UInt64.toNat_sub_of_le _ _ above, code]
      exact Nat.add_sub_cancel_left _ _
    rw [if_pos high, same_upper, same_low]
  · have bound : upper.toNat < 18446744073709551616 := upper.toNat_lt
    have flat : ¬ sortCode ⟨upper, low⟩ >>> 32 ≠ 0 := by
      apply not_not.mpr
      apply UInt64.toNat_inj.mp
      rw [toNat_shiftRight_32, UInt64.toNat_zero]
      omega
    have same_upper : sortCode ⟨upper, low⟩ <<< 32 = upper := by
      apply UInt64.toNat_inj.mp
      rw [UInt64.toNat_shiftLeft]
      simp only [UInt64.reduceToNat, Nat.shiftLeft_eq, Nat.reduceMod, Nat.reducePow]
      omega
    have same_low : low = 0 := UInt64.toNat_inj.mp zero
    rw [if_neg flat, same_upper, same_low]

theorem mem_distinctKeys {keys : List Uhugeint} {key : Uhugeint} :
    key ∈ distinctKeys keys ↔ key ∈ keys := by
  unfold distinctKeys
  split
  · rename_i coded
    have fits := List.all_eq_true.mp coded
    rw [List.mem_map]
    constructor
    · rintro ⟨code, sorted, rfl⟩
      obtain ⟨original, present, rfl⟩ := List.mem_map.mp (mem_sortUnique.mp sorted)
      rwa [fromSortCode_sortCode (fits original present)]
    · intro present
      exact ⟨sortCode key, mem_sortUnique.mpr (List.mem_map_of_mem present),
        fromSortCode_sortCode (fits key present)⟩
  · exact mem_sortUnique

structure Cached (cache : GramKeysCache) : Prop where
  parsed : ∀ name tokenizer, cache.tokenizer = some (name, tokenizer) →
    parseTokenizer name "ngram_gram_keys" = .ok tokenizer
  validated : ∀ options, cache.options = some options →
    validateGramOptions options "ngram_gram_keys" = .ok ()

theorem cached_empty : Cached ⟨none, none⟩ where
  parsed _ _ none := nomatch none
  validated _ none := nomatch none

theorem cached_tokenizerOf {cache : GramKeysCache} (cached : Cached cache) (name : String) :
    cache.tokenizerOf name = parseTokenizer name "ngram_gram_keys" := by
  unfold GramKeysCache.tokenizerOf
  split
  · rename_i known tokenizer found
    split
    · rename_i same
      rw [← same, cached.parsed known tokenizer found]
    · rfl
  · rfl

theorem cached_validate {cache : GramKeysCache} (cached : Cached cache) (options : GramOptions) :
    cache.validate options = validateGramOptions options "ngram_gram_keys" := by
  unfold GramKeysCache.validate
  split
  · rename_i known
    rw [cached.validated options known]
  · rfl

def gramKeysOf (lower : Char → Nat) (mask : GramKeyMask) (row : GramKeysRow) :
    Except String (Option (List Uhugeint)) :=
  (gramKeysRow lower mask ⟨none, none⟩ row).map Prod.snd

theorem gramKeysRow_cached {cache : GramKeysCache} (cached : Cached cache) (row : GramKeysRow) :
    (gramKeysRow lower mask cache row).map Prod.snd = gramKeysOf lower mask row ∧
      ∀ next keys, gramKeysRow lower mask cache row = .ok (next, keys) → Cached next := by
  unfold gramKeysOf gramKeysRow
  split
  · rename_i text name minGram maxGram caseInsensitive _ _ _ _ _
    rw [cached_tokenizerOf cached, cached_tokenizerOf cached_empty]
    cases parsed : parseTokenizer name "ngram_gram_keys" with
    | error message => exact ⟨rfl, fun next keys run => nomatch run⟩
    | ok tokenizer =>
      rw [bind_of_ok rfl, bind_of_ok rfl]
      simp only [cached_validate cached, cached_validate cached_empty]
      refine ⟨trivial, fun next keys run => ?_⟩
      obtain ⟨_, validated, run⟩ := bind_ok run
      obtain ⟨_, _, run⟩ := bind_ok run
      cases ok_inj run
      constructor
      · intro known other same
        cases same
        exact parsed
      · intro options same
        cases same
        exact validated
  · refine ⟨rfl, fun next keys run => ?_⟩
    cases ok_inj run
    exact cached

theorem gramKeysRows_cached {cache : GramKeysCache} (cached : Cached cache) (rows : List GramKeysRow) :
    gramKeysRows lower mask cache rows = rows.mapM (gramKeysOf lower mask) := by
  induction rows generalizing cache with
  | nil => rfl
  | cons row rows ih =>
    obtain ⟨same, kept⟩ := @gramKeysRow_cached lower mask cache cached row
    rw [gramKeysRows, List.mapM_cons, ← same]
    cases run : gramKeysRow lower mask cache row with
    | error message => rfl
    | ok result =>
      obtain ⟨next, keys⟩ := result
      have rest := ih (kept next keys run)
      rw [bind_of_ok rfl]
      simp only [rest]
      rfl

theorem gramKeysFunction_rows (rows : List GramKeysRow) :
    gramKeysFunction lower mask rows = rows.mapM (gramKeysOf lower mask) :=
  gramKeysRows_cached cached_empty rows

/-- The row that packing an index's rows passes: the column's value and the
    index's options as constants. -/
def packedRow (options : GramOptions) (value : Option String) : GramKeysRow where
  text := value.map bytes
  tokenizer := some (tokenizerName options.tokenizer)
  minGram := some options.minGram
  maxGram := some options.maxGram
  caseInsensitive := some options.caseInsensitive

def storedKeys (lower : Char → Nat) (mask : GramKeyMask) (options : GramOptions) (text : String) :
    List Uhugeint :=
  let codepoints := normalize lower options text.toList
  distinctKeys ((gramRanges (scratchOf codepoints) options).map fun r =>
    tokenizedGramKey options (scratchOf codepoints) r.1 r.2 mask)

theorem parse_tokenizerName (tokenizer : GramTokenizer) (fn : String) :
    parseTokenizer (tokenizerName tokenizer) fn = .ok tokenizer := by
  cases tokenizer
  · exact if_pos (by decide)
  · exact (if_neg (by decide)).trans (if_pos (by decide))

theorem validate_any_fn {fn : String} (valid : validateGramOptions options fn = .ok ())
    (other : String) : validateGramOptions options other = .ok () := by
  unfold validateGramOptions at valid ⊢
  cases tokenizer : options.tokenizer with
  | ngram =>
    rw [tokenizer] at valid
    exact check_of_not (check_ok valid).1
  | sparse =>
    rw [tokenizer] at valid
    obtain ⟨long, valid⟩ := check_ok valid
    exact (check_of_not long).trans (check_of_not (check_ok valid).1)

theorem gramKeysOf_packedRow {fn : String} (valid : validateGramOptions options fn = .ok ())
    (value : Option String) :
    gramKeysOf lower mask (packedRow options value) = .ok (value.map (storedKeys lower mask options)) := by
  cases value with
  | none => rfl
  | some text =>
    have lengths : (⟨options.tokenizer, (max (options.minGram : Int) 0).toNat,
        (max (options.maxGram : Int) 0).toNat, options.caseInsensitive⟩ : GramOptions) = options := by
      simp
    unfold gramKeysOf gramKeysRow packedRow
    simp only [Option.map_some, cached_tokenizerOf cached_empty, parse_tokenizerName, bytes_eq_encode]
    rw [bind_of_ok rfl]
    simp only [lengths, cached_validate cached_empty]
    rw [bind_of_ok (validate_any_fn valid _), bind_of_ok (extractGramRanges_encode text.toList)]
    rfl

theorem packed_chunk {fn : String} (valid : validateGramOptions options fn = .ok ())
    (chunk : List (Option String)) :
    gramKeysFunction lower mask (chunk.map (packedRow options)) =
      .ok (chunk.map (Option.map (storedKeys lower mask options))) := by
  rw [gramKeysFunction_rows, List.mapM_map]
  exact mapM_ok_of _ chunk fun value _ => gramKeysOf_packedRow valid value

theorem mem_storedKeys {fn : String} (valid : validateGramOptions options fn = .ok ()) (text : String)
    (key : Uhugeint) :
    key ∈ storedKeys lower mask options text ↔ ∃ first finish,
      IsGram options (normalize lower options text.toList) first finish ∧
      key = tokenizedGramKey options (scratchOf (normalize lower options text.toList)) first finish
        mask := by
  unfold storedKeys
  rw [mem_distinctKeys, List.mem_map]
  constructor
  · rintro ⟨⟨first, finish⟩, emitted, rfl⟩
    exact ⟨first, finish, (mem_gramRanges (valid_minGram valid) _ first finish).mp emitted, rfl⟩
  · rintro ⟨first, finish, gram, rfl⟩
    exact ⟨(first, finish), (mem_gramRanges (valid_minGram valid) _ first finish).mpr gram, rfl⟩

end Stored

section Superset

def Occurs (lower : Char → Nat) (options : GramOptions) (needle text : String) : Prop :=
  bytes needle <:+: bytes text ∨
    ∃ q t, normalizeString lower (bytes needle) options = .ok q ∧
      normalizeString lower (bytes text) options = .ok t ∧ q.normalized <:+: t.normalized

theorem normalize_ne_nil {text : List Char} (nonempty : text ≠ []) :
    normalize lower options text ≠ [] := by
  intro empty
  exact nonempty (List.map_eq_nil_iff.mp empty)

theorem occurs_normalized {needle text : String} (nonempty : needle.toList ≠ [])
    (occurs : Occurs lower options needle text) :
    normalize lower options needle.toList <:+: normalize lower options text.toList := by
  unfold Occurs at occurs
  rw [bytes_eq_encode, bytes_eq_encode] at occurs
  rcases occurs with ⟨pre, post, same⟩ | ⟨q, t, needleRun, textRun, pre, post, same⟩
  · obtain ⟨left, right, whole, _⟩ := occurrence_on_boundaries nonempty same.symm
    refine ⟨normalize lower options left, normalize lower options right, ?_⟩
    rw [← normalize_append, ← normalize_append, ← whole]
  · rw [normalizeString_encode] at needleRun textRun
    cases ok_inj needleRun
    cases ok_inj textRun
    obtain ⟨left, right, whole, _⟩ :=
      occurrence_on_boundaries (normalize_ne_nil nonempty) same.symm
    exact ⟨left, right, whole.symm⟩

theorem gram_in_whole {fn : String} (valid : validateGramOptions options fn = .ok ())
    (left inner right : List Char) {first finish : Nat} (gram : IsGram options inner first finish)
    (order : first ≤ finish) :
    IsGram options (left ++ inner ++ right) (left.length + first) (left.length + finish) ∧
      tokenizedGramKey options (scratchOf (left ++ inner ++ right)) (left.length + first)
        (left.length + finish) mask = tokenizedGramKey options (scratchOf inner) first finish mask := by
  have inside := gram.1
  have wider : left.length + finish ≤ (left ++ inner ++ right).length := by
    rw [List.length_append, List.length_append]
    omega
  have same := @slice_append left inner right first finish inside
  have ordered : left.length + first ≤ left.length + finish := Nat.add_le_add_left order _
  constructor
  · rw [gram_of_slice valid ordered wider, same, Nat.add_sub_add_left]
    exact (gram_of_slice valid order inside).mp gram
  · rw [slice_key ordered wider, same, Nat.add_sub_add_left, slice_key order inside]

theorem gram_order {codepoints : List Char} {first finish : Nat}
    (gram : IsGram options codepoints first finish) : first ≤ finish := by
  have shape := gram.2
  cases tokenizer : options.tokenizer with
  | ngram =>
    rw [tokenizer] at shape
    simp only at shape
    omega
  | sparse =>
    rw [tokenizer] at shape
    obtain ⟨_, right, same, framed⟩ := shape
    have before := framed.1
    omega

theorem needle_key_stored {fn : String} (valid : validateGramOptions options fn = .ok ())
    {needle text : String} {maxKeys : Nat} {keys grown : NeedleKeys}
    (probeable : decomposeNeedle lower mask (bytes needle) options maxKeys keys = .ok (.probeable, grown))
    (occurs : Occurs lower options needle text) :
    ∀ key ∈ grown.keys, key ∈ keys.keys ∨ key ∈ storedKeys lower mask options text := by
  rw [bytes_eq_encode] at probeable
  obtain ⟨left, right, whole⟩ := occurs_normalized (probeable_nonempty valid probeable) occurs
  intro key present
  rcases decomposeNeedle_keys valid probeable key present with old | ⟨first, finish, gram, rfl⟩
  · exact Or.inl old
  · have ⟨found, same⟩ :=
      @gram_in_whole options mask fn valid left _ right first finish gram (gram_order gram)
    rw [whole] at found same
    exact Or.inr ((mem_storedKeys valid text _).mpr ⟨_, _, found, same.symm⟩)

theorem decomposeNeedle_returns (needle : String) (maxKeys : Nat) (keys : NeedleKeys) :
    ∃ shape grown, decomposeNeedle lower mask (bytes needle) options maxKeys keys =
      .ok (shape, grown) := by
  rw [bytes_eq_encode]
  unfold decomposeNeedle
  split
  · exact ⟨_, _, rfl⟩
  · rw [bind_of_ok (extractGramRanges_encode needle.toList)]
    simp only
    cases options.tokenizer with
    | ngram =>
      simp only
      split
      · exact ⟨_, _, rfl⟩
      · exact ⟨_, _, rfl⟩
    | sparse =>
      simp only
      split
      · exact ⟨_, _, rfl⟩
      · exact ⟨_, _, rfl⟩

/-- A range is a gram, or not, wherever its codepoints stand. -/
theorem gram_local {fn : String} (valid : validateGramOptions options fn = .ok ()) {a b : List Char}
    {first finish first' finish' : Nat} (order : first ≤ finish) (inside : finish ≤ a.length)
    (order' : first' ≤ finish') (inside' : finish' ≤ b.length)
    (same : slice a first finish = slice b first' finish') :
    (first, finish) ∈ gramRanges (scratchOf a) options ↔
      (first', finish') ∈ gramRanges (scratchOf b) options := by
  have one := valid_minGram valid
  have length : finish - first = finish' - first' := by
    rw [← slice_length inside, ← slice_length inside', same]
  rw [mem_gramRanges one, mem_gramRanges one, gram_of_slice valid order inside,
    gram_of_slice valid order' inside', same, length]

structure SupersetLaw (lower : Char → Nat) (mask : GramKeyMask) (options : GramOptions)
    (chunk : List (Option String)) (stored : List (Option (List Uhugeint))) : Prop where
  keyed : stored.length = chunk.length
  superset : ∀ (i : Nat) (text : String), chunk[i]? = some (some text) →
    ∃ keysOf, stored[i]? = some (some keysOf) ∧ ∀ needle maxKeys keys grown,
      decomposeNeedle lower mask (bytes needle) options maxKeys keys = .ok (.probeable, grown) →
      Occurs lower options needle text → ∀ key ∈ grown.keys, key ∈ keys.keys ∨ key ∈ keysOf
  decomposes : ∀ needle maxKeys keys, ∃ shape grown,
    decomposeNeedle lower mask (bytes needle) options maxKeys keys = .ok (shape, grown)
  /-- A probeable needle occurs between codepoints, in the text and normalized. -/
  onBoundaries : ∀ (needle text : String) maxKeys keys grown q t,
    decomposeNeedle lower mask (bytes needle) options maxKeys keys = .ok (.probeable, grown) →
    normalizeString lower (bytes needle) options = .ok q →
    normalizeString lower (bytes text) options = .ok t → ∀ pre post,
    (bytes text = pre ++ bytes needle ++ post → pre.length ∈ boundaries text.toList ∧
      (pre ++ bytes needle).length ∈ boundaries text.toList) ∧
    (t.normalized = pre ++ q.normalized ++ post → pre.length ∈ t.offsets ∧
      (pre ++ q.normalized).length ∈ t.offsets)
  folds : ∀ a b : String, ∃ na nb whole, normalizeString lower (bytes a) options = .ok na ∧
    normalizeString lower (bytes b) options = .ok nb ∧
    normalizeString lower (bytes (a ++ b)) options = .ok whole ∧
    whole.normalized = na.normalized ++ nb.normalized
  inside : ∀ (a b : List Char) (first finish first' finish' : Nat), first ≤ finish →
    finish ≤ a.length → first' ≤ finish' → finish' ≤ b.length →
    slice a first finish = slice b first' finish' →
    ((first, finish) ∈ gramRanges (scratchOf a) options ↔
      (first', finish') ∈ gramRanges (scratchOf b) options)

/-- Building a chunk keys every text of it, and every key that a probeable
    needle adds is stored for each text the needle occurs in. -/
theorem needle_keys_stored (lower : Char → Nat) (mask : GramKeyMask) {fn : String}
    (valid : validateGramOptions options fn = .ok ()) (chunk : List (Option String)) :
    ∃ stored, gramKeysFunction lower mask (chunk.map (packedRow options)) = .ok stored ∧
      SupersetLaw lower mask options chunk stored := by
  refine ⟨_, packed_chunk valid chunk, ?_⟩
  constructor
  case keyed => exact List.length_map _
  case superset =>
    intro i text present
    refine ⟨storedKeys lower mask options text, ?_, ?_⟩
    · rw [List.getElem?_map, present]
      rfl
    · intro needle maxKeys keys grown probeable occurs
      exact needle_key_stored valid probeable occurs
  case decomposes => exact decomposeNeedle_returns
  case onBoundaries =>
    intro needle text maxKeys keys grown q t probeable needleRun textRun pre post
    rw [bytes_eq_encode] at probeable needleRun textRun
    rw [normalizeString_encode] at needleRun textRun
    cases ok_inj needleRun
    cases ok_inj textRun
    have nonempty := probeable_nonempty valid probeable
    rw [bytes_eq_encode, bytes_eq_encode]
    constructor
    · intro split
      exact occurrence_ends nonempty split
    · intro split
      exact occurrence_ends (normalize_ne_nil nonempty) split
  case folds =>
    intro a b
    simp only [bytes_eq_encode, normalizeString_encode, String.toList_append, normalize_append]
    exact ⟨_, _, _, rfl, rfl, rfl, encode_append _ _⟩
  case inside =>
    intro a b first finish first' finish' order inside order' inside' same
    exact gram_local valid order inside order' inside' same

/-- A sparse index that folds case, under a narrowed mask: two rows of one chunk
    with a NULL between them. -/
theorem folded_texts_keyed :
    (decomposeNeedle (fun c => c.toLower.toNat) ⟨0xFFFFFFFFFFFFFFFF, 0xFF⟩ (bytes "ZéBRA")
        ⟨.sparse, 3, 8, true⟩ 100 .empty).map (fun r => (r.1, r.2.keys.length)) =
          .ok (.probeable, 2) ∧
      ∃ stored, gramKeysFunction (fun c => c.toLower.toNat) ⟨0xFFFFFFFFFFFFFFFF, 0xFF⟩
          ([some "a zébra", none, some "zebra"].map (packedRow ⟨.sparse, 3, 8, true⟩)) = .ok stored ∧
        SupersetLaw (fun c => c.toLower.toNat) ⟨0xFFFFFFFFFFFFFFFF, 0xFF⟩ ⟨.sparse, 3, 8, true⟩
          [some "a zébra", none, some "zebra"] stored :=
  ⟨by decide +kernel, @needle_keys_stored ⟨.sparse, 3, 8, true⟩ _ _ "ngram_gram_keys" rfl _⟩

end Superset
end NgramGram
