import NgramIndex.GramSuperset

/- ngram_gram_keys over a chunk, with the buffers and the parsed options that a row
   leaves to the rows after it, and the one child list that all rows share. Keys
   sorted through their 64-bit codes are the keys sorted as they are. -/
namespace NgramGram
open AscendingLists Fallible

section Codes

theorem uhugeint_lt {a b : Uhugeint} :
    a < b ↔ a.upper.toNat < b.upper.toNat ∨ a.upper.toNat = b.upper.toNat ∧ a.lower.toNat < b.lower.toNat := by
  change toLex (a.upper, a.lower) < toLex (b.upper, b.lower) ↔ _
  rw [Prod.Lex.toLex_lt_toLex, UInt64.lt_iff_toNat_lt, UInt64.lt_iff_toNat_lt, ← UInt64.toNat_inj]

/-- Sort codes order as the keys they are codes of. -/
theorem sortCode_lt {a b : Uhugeint} (left : sortCodeFits a) (right : sortCodeFits b) :
    sortCode a < sortCode b ↔ a < b := by
  rw [uhugeint_lt, UInt64.lt_iff_toNat_lt]
  have := sortCode_shape left
  have := sortCode_shape right
  omega

theorem sortCode_injective {a b : Uhugeint} (left : sortCodeFits a) (right : sortCodeFits b)
    (same : sortCode a = sortCode b) : a = b := by
  rw [← fromSortCode_sortCode left, same, fromSortCode_sortCode right]

theorem coded_sortUnique {keys : List Uhugeint} (fits : ∀ key ∈ keys, sortCodeFits key) :
    (sortUnique (keys.map sortCode)).map fromSortCode = sortUnique keys := by
  have ascends : Ascending ((sortUnique keys).map sortCode) := by
    refine List.pairwise_map.mpr ((sortUnique_ascending keys).imp_of_mem fun {a b} left right less => ?_)
    exact (sortCode_lt (fits a (mem_sortUnique.mp left)) (fits b (mem_sortUnique.mp right))).mpr less
  have sorted : sortUnique (keys.map sortCode) = (sortUnique keys).map sortCode :=
    sortUnique_eq ascends fun code => by simp only [List.mem_map, mem_sortUnique]
  rw [sorted, List.map_map]
  refine (List.map_congr_left fun key present => ?_).trans (List.map_id _)
  exact fromSortCode_sortCode (fits key (mem_sortUnique.mp present))

theorem distinctKeys_eq (keys : List Uhugeint) : distinctKeys keys = sortUnique keys := by
  unfold distinctKeys
  split
  · rename_i coded
    exact coded_sortUnique (List.all_eq_true.mp coded)
  · rfl

end Codes

section Chunk

/-- The vectors that a row leaves to the next one. -/
structure KeysBuffers where
  keys : List Uhugeint
  codes : List UInt64

/-- vector::resize, which appends zeros. -/
def resizeCodes (codes : List UInt64) (size : Nat) : List UInt64 :=
  codes.take size ++ List.replicate (size - codes.length) 0

def overwrite {α : Type} (vector values : List α) : List α := values ++ vector.drop values.length

/-- The sorted distinct keys of a row, in front of the keys vector, and their number. -/
def sortKeys (buffers : KeysBuffers) (emitted : List Uhugeint) : KeysBuffers × Nat :=
  if emitted.all sortCodeFits then
    let codes := overwrite (resizeCodes buffers.codes emitted.length) (emitted.map sortCode)
    let sorted := codes.insertionSort (· ≤ ·)
    let distinct := unique sorted
    (⟨overwrite emitted (distinct.map fromSortCode), overwrite sorted distinct⟩, distinct.length)
  else
    let sorted := emitted.insertionSort (· ≤ ·)
    let distinct := unique sorted
    (⟨overwrite sorted distinct, buffers.codes⟩, distinct.length)

/-- The result vector: the list entry of each row, unless it is NULL, and the child. -/
structure KeysVector where
  entries : List (Option (Nat × Nat))
  child : List Uhugeint

def KeysVector.lists (vector : KeysVector) : List (Option (List Uhugeint)) :=
  vector.entries.map fun entry => entry.map fun place => (vector.child.drop place.1).take place.2

structure ChunkState where
  cache : GramKeysCache
  buffers : KeysBuffers
  result : KeysVector

def gramKeysChunkRow (lower : Char → Nat) (mask : GramKeyMask) (s : ChunkState) (row : GramKeysRow) :
    Except String ChunkState :=
  match row.text, row.tokenizer, row.minGram, row.maxGram, row.caseInsensitive with
  | some text, some name, some minGram, some maxGram, some caseInsensitive => do
      let tokenizer ← s.cache.tokenizerOf name
      let options : GramOptions := ⟨tokenizer, (max minGram 0).toNat, (max maxGram 0).toNat, caseInsensitive⟩
      s.cache.validate options
      let (scratch, ranges) ← extractGramRanges lower text options
      let (buffers, distinct) := sortKeys s.buffers
        (ranges.map fun r => tokenizedGramKey options scratch r.1 r.2 mask)
      .ok {
        cache := ⟨some (name, tokenizer), some options⟩
        buffers := buffers
        result := ⟨s.result.entries ++ [some (s.result.child.length, distinct)],
          s.result.child ++ buffers.keys.take distinct⟩ }
  | _, _, _, _, _ => .ok { s with result := { s.result with entries := s.result.entries ++ [none] } }

def gramKeysChunk (lower : Char → Nat) (mask : GramKeyMask) (rows : List GramKeysRow) :
    Except String KeysVector := do
  let s ← rows.foldlM (gramKeysChunkRow lower mask) ⟨⟨none, none⟩, ⟨[], []⟩, ⟨[], []⟩⟩
  .ok s.result

/-- A row's list by the 128-bit keys alone, with the options it names itself. -/
def ownKeys (lower : Char → Nat) (mask : GramKeyMask) (row : GramKeysRow) :
    Except String (Option (List Uhugeint)) :=
  match row.text, row.tokenizer, row.minGram, row.maxGram, row.caseInsensitive with
  | some text, some name, some minGram, some maxGram, some caseInsensitive => do
      let tokenizer ← parseTokenizer name "ngram_gram_keys"
      let options : GramOptions := ⟨tokenizer, (max minGram 0).toNat, (max maxGram 0).toNat, caseInsensitive⟩
      validateGramOptions options "ngram_gram_keys"
      let (scratch, ranges) ← extractGramRanges lower text options
      .ok (some (sortUnique (ranges.map fun r => tokenizedGramKey options scratch r.1 r.2 mask)))
  | _, _, _, _, _ => .ok none

theorem overwrite_taken {α : Type} (vector values : List α) {size : Nat} (same : values.length = size) :
    (overwrite vector values).take size = values := same ▸ List.take_left

/-- Whatever the vectors held before, the first elements are the row's own keys. -/
theorem sortKeys_own (buffers : KeysBuffers) (emitted : List Uhugeint) :
    (sortKeys buffers emitted).1.keys.take (sortKeys buffers emitted).2 = sortUnique emitted ∧
      (sortKeys buffers emitted).2 = (sortUnique emitted).length := by
  have size : (resizeCodes buffers.codes emitted.length).length = emitted.length := by
    simp [resizeCodes]
    omega
  have all_written : overwrite (resizeCodes buffers.codes emitted.length) (emitted.map sortCode) =
      emitted.map sortCode := by
    unfold overwrite
    rw [List.drop_eq_nil_of_le (by rw [List.length_map, size]), List.append_nil]
  unfold sortKeys
  split
  · rename_i coded
    have same := coded_sortUnique (List.all_eq_true.mp coded)
    simp only [all_written]
    rw [overwrite_taken _ _ (List.length_map _), ← same, List.length_map]
    exact ⟨rfl, rfl⟩
  · exact ⟨overwrite_taken _ _ rfl, rfl⟩

/-- Every entry lies in the child, and the parsed options are those of some row. -/
structure Laid (s : ChunkState) : Prop where
  cached : Cached s.cache
  inside : ∀ place, some place ∈ s.result.entries → place.1 + place.2 ≤ s.result.child.length

theorem lists_append {vector : KeysVector} (entry : Option (Nat × Nat)) (keys : List Uhugeint)
    (inside : ∀ place, some place ∈ vector.entries → place.1 + place.2 ≤ vector.child.length) :
    (KeysVector.mk (vector.entries ++ [entry]) (vector.child ++ keys)).lists =
      vector.lists ++ [entry.map fun place => ((vector.child ++ keys).drop place.1).take place.2] := by
  unfold KeysVector.lists
  rw [List.map_append, List.map_singleton]
  refine congrArg (· ++ _) (List.map_congr_left fun entry listed => ?_)
  cases entry with
  | none => rfl
  | some place =>
    have bound := inside place listed
    refine congrArg some ?_
    dsimp only
    rw [List.drop_append_of_le_length (by omega), List.take_append_of_le_length]
    rw [List.length_drop]
    omega

variable {lower : Char → Nat} {mask : GramKeyMask}

/-- A row fails as it would alone, or adds its own list. -/
theorem gramKeysChunkRow_own {s : ChunkState} (laid : Laid s) (row : GramKeysRow) :
    (∃ e, gramKeysChunkRow lower mask s row = .error e ∧ ownKeys lower mask row = .error e) ∨
      ∃ t keys, gramKeysChunkRow lower mask s row = .ok t ∧ ownKeys lower mask row = .ok keys ∧ Laid t ∧
        t.result.lists = s.result.lists ++ [keys] := by
  obtain ⟨cached, inside⟩ := laid
  unfold gramKeysChunkRow ownKeys
  split
  · rename_i text name minGram maxGram caseInsensitive _ _ _ _ _
    rw [cached_tokenizerOf cached]
    cases parsed : parseTokenizer name "ngram_gram_keys" with
    | error e => exact Or.inl ⟨e, rfl, rfl⟩
    | ok tokenizer =>
      rw [bind_of_ok rfl, bind_of_ok rfl]
      simp only [cached_validate cached]
      cases validated : validateGramOptions ⟨tokenizer, (max minGram 0).toNat, (max maxGram 0).toNat,
          caseInsensitive⟩ "ngram_gram_keys" with
      | error e => exact Or.inl ⟨e, rfl, rfl⟩
      | ok _ =>
        rw [bind_of_ok rfl, bind_of_ok rfl]
        cases extracted : extractGramRanges lower text ⟨tokenizer, (max minGram 0).toNat, (max maxGram 0).toNat,
            caseInsensitive⟩ with
        | error e => exact Or.inl ⟨e, rfl, rfl⟩
        | ok found =>
          obtain ⟨scratch, ranges⟩ := found
          obtain ⟨taken, count⟩ := sortKeys_own s.buffers (ranges.map fun r => tokenizedGramKey
            ⟨tokenizer, (max minGram 0).toNat, (max maxGram 0).toNat, caseInsensitive⟩ scratch r.1 r.2 mask)
          refine Or.inr ⟨_, _, rfl, rfl, ⟨⟨?_, ?_⟩, ?_⟩, ?_⟩
          · intro known other same
            cases same
            exact parsed
          · intro options same
            cases same
            exact validated
          · intro place listed
            simp only at listed ⊢
            rw [List.length_append, taken, ← count]
            rcases List.mem_append.mp listed with before | own
            · have := inside place before
              omega
            · obtain rfl := Option.some.inj (List.mem_singleton.mp own)
              exact Nat.le_refl _
          · rw [taken, count, lists_append _ _ inside, Option.map_some, List.drop_left, List.take_length]
  · refine Or.inr ⟨_, none, rfl, rfl, ⟨cached, ?_⟩, ?_⟩
    · intro place listed
      simp only [List.mem_append, List.mem_singleton, reduceCtorEq, or_false] at listed
      exact inside place listed
    · have added := lists_append none [] inside
      rwa [List.append_nil] at added

theorem gramKeysChunk_from {s : ChunkState} (laid : Laid s) (rows : List GramKeysRow) :
    (rows.foldlM (gramKeysChunkRow lower mask) s).map (fun t => t.result.lists) =
      (rows.mapM (ownKeys lower mask)).map (s.result.lists ++ ·) := by
  induction rows generalizing s with
  | nil => simp [pure, Except.pure, Except.map]
  | cons row rows ih =>
    rw [List.foldlM_cons, List.mapM_cons]
    rcases @gramKeysChunkRow_own lower mask s laid row with
      ⟨e, step, own⟩ | ⟨t, keys, step, own, later, lists⟩
    · rw [step, own]
      rfl
    · rw [bind_of_ok step, bind_of_ok own, ih later, lists]
      cases rows.mapM (ownKeys lower mask) with
      | error e => rfl
      | ok rest => exact congrArg Except.ok (by simp)

/-- The chunk's vector holds each row's own list, and fails as its first bad row does. -/
theorem gramKeysChunk_rows (rows : List GramKeysRow) :
    (gramKeysChunk lower mask rows).map KeysVector.lists = rows.mapM (ownKeys lower mask) := by
  have start : Laid ⟨⟨none, none⟩, ⟨[], []⟩, ⟨[], []⟩⟩ := ⟨cached_empty, by simp⟩
  have whole := @gramKeysChunk_from lower mask _ start rows
  unfold gramKeysChunk
  cases run : rows.foldlM (gramKeysChunkRow lower mask) ⟨⟨none, none⟩, ⟨[], []⟩, ⟨[], []⟩⟩ with
  | error e =>
    rw [run] at whole
    cases owns : rows.mapM (ownKeys lower mask) with
    | error e' => rw [owns] at whole; exact whole
    | ok lists => rw [owns] at whole; cases whole
  | ok t =>
    rw [run] at whole
    cases owns : rows.mapM (ownKeys lower mask) with
    | error e' => rw [owns] at whole; cases whole
    | ok lists => rw [owns] at whole; exact whole

/-- The list that packing a row relies on is the one the chunk holds for it. -/
theorem gramKeysOf_own (row : GramKeysRow) : gramKeysOf lower mask row = ownKeys lower mask row := by
  rcases row with ⟨_ | text, _ | name, _ | minGram, _ | maxGram, _ | caseInsensitive⟩ <;> try rfl
  unfold gramKeysOf gramKeysRow ownKeys
  simp only [cached_tokenizerOf cached_empty, cached_validate cached_empty, distinctKeys_eq]
  cases parseTokenizer name "ngram_gram_keys" with
  | error e => rfl
  | ok tokenizer =>
    rw [bind_of_ok rfl, bind_of_ok rfl]
    cases validateGramOptions ⟨tokenizer, (max minGram 0).toNat, (max maxGram 0).toNat, caseInsensitive⟩
        "ngram_gram_keys" with
    | error e => rfl
    | ok _ =>
      rw [bind_of_ok rfl, bind_of_ok rfl]
      cases extractGramRanges lower text ⟨tokenizer, (max minGram 0).toNat, (max maxGram 0).toNat,
          caseInsensitive⟩ with
      | error e => rfl
      | ok found => rfl

/-- A list that a row of text is given, against the grams of the text. -/
structure KeysOf (lower : Char → Nat) (mask : GramKeyMask) (text : List UInt8) (options : GramOptions)
    (list : List Uhugeint) : Prop where
  ascending : Ascending list
  exact : ∃ scratch ranges, extractGramRanges lower text options = .ok (scratch, ranges) ∧
    ∀ key, key ∈ list ↔ ∃ r ∈ ranges, key = tokenizedGramKey options scratch r.1 r.2 mask

theorem ownKeys_ok {row : GramKeysRow} {list : List Uhugeint}
    (own : ownKeys lower mask row = .ok (some list)) :
    ∃ text name minGram maxGram caseInsensitive tokenizer, row = ⟨some text, some name, some minGram,
        some maxGram, some caseInsensitive⟩ ∧ parseTokenizer name "ngram_gram_keys" = .ok tokenizer ∧
      KeysOf lower mask text ⟨tokenizer, (max minGram 0).toNat, (max maxGram 0).toNat, caseInsensitive⟩ list := by
  rcases row with ⟨_ | text, _ | name, _ | minGram, _ | maxGram, _ | caseInsensitive⟩ <;> try cases ok_inj own
  obtain ⟨tokenizer, parsed, own⟩ := bind_ok own
  obtain ⟨_, _, own⟩ := bind_ok own
  obtain ⟨⟨scratch, ranges⟩, extracted, own⟩ := bind_ok own
  obtain rfl := Option.some.inj (ok_inj own)
  refine ⟨text, name, minGram, maxGram, caseInsensitive, tokenizer, rfl, parsed, sortUnique_ascending _, scratch,
    ranges, extracted, fun key => ?_⟩
  rw [mem_sortUnique, List.mem_map]
  exact exists_congr fun r => and_congr_right fun _ => eq_comm

structure CodesAgree : Prop where
  order : ∀ a b, sortCodeFits a → sortCodeFits b → (sortCode a < sortCode b ↔ a < b)
  injective : ∀ a b, sortCodeFits a → sortCodeFits b → sortCode a = sortCode b → a = b
  inverse : ∀ key, sortCodeFits key → fromSortCode (sortCode key) = key
  sorts : ∀ keys : List Uhugeint, (∀ key ∈ keys, sortCodeFits key) →
    (sortUnique (keys.map sortCode)).map fromSortCode = sortUnique keys

/-- Whichever path each row of a chunk takes, and whatever the rows before it left in
    the buffers, the chunk holds the lists that sorting each row's 128-bit keys gives. -/
theorem gram_keys_paths_agree (lower : Char → Nat) (mask : GramKeyMask) :
    CodesAgree ∧
    (∀ rows, (gramKeysChunk lower mask rows).map KeysVector.lists = rows.mapM (ownKeys lower mask)) ∧
    ∀ row list, ownKeys lower mask row = .ok (some list) →
      ∃ text name minGram maxGram caseInsensitive tokenizer, row = ⟨some text, some name, some minGram,
          some maxGram, some caseInsensitive⟩ ∧ parseTokenizer name "ngram_gram_keys" = .ok tokenizer ∧
        KeysOf lower mask text ⟨tokenizer, (max minGram 0).toNat, (max maxGram 0).toNat, caseInsensitive⟩ list :=
  ⟨⟨fun _ _ => sortCode_lt, fun _ _ => sortCode_injective, fun _ => fromSortCode_sortCode,
      fun _ => coded_sortUnique⟩, gramKeysChunk_rows, fun _ _ => ownKeys_ok⟩

/-- The function of the build and of the probe is the one over the buffers. -/
theorem gramKeysFunction_chunk (rows : List GramKeysRow) :
    gramKeysFunction lower mask rows = (gramKeysChunk lower mask rows).map KeysVector.lists := by
  rw [gramKeysFunction_rows, gramKeysChunk_rows]
  exact congrArg (fun f => rows.mapM f) (funext gramKeysOf_own)

/-- A coded row, a NULL and a row of five-byte grams share one chunk. -/
example : (gramKeysChunk (fun c => c.toNat) {} [
    ⟨some [97, 98, 99, 100], some "ngram", some 3, some 3, some true⟩,
    ⟨none, some "ngram", some 3, some 3, some true⟩,
    ⟨some [97, 98, 99, 100, 101, 102], some "NGRAM", some 5, some 5, some false⟩]).map KeysVector.entries =
    .ok [some (0, 2), none, some (2, 2)] := by decide +kernel

end Chunk
end NgramGram
