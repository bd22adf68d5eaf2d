import Mathlib.Order.Lattice
import Mathlib.Data.UInt
import Mathlib.Data.Prod.Lex
import NgramIndex.Ascending
import NgramIndex.Fallible
import NgramIndex.MonotoneStack
import NgramIndex.Utf8

/- Normalization, gram extraction, gram keys and needle decomposition. The
   lower-casing of codepoints is a parameter: nothing below depends on it. -/
namespace NgramGram
open AscendingLists Fallible MonotoneStack

instance linearOrderUInt64 : LinearOrder UInt64 where
  le_refl := UInt64.le_refl
  le_trans _ _ _ := UInt64.le_trans
  lt_iff_le_not_ge a b := by
    rw [UInt64.lt_iff_toNat_lt, UInt64.le_iff_toNat_le, UInt64.le_iff_toNat_le]
    omega
  le_antisymm _ _ := UInt64.le_antisymm
  le_total := UInt64.le_total
  toDecidableLE := inferInstance
  toDecidableEq := inferInstance
  toDecidableLT := inferInstance

inductive GramTokenizer
  | ngram
  | sparse
  deriving DecidableEq

structure GramOptions where
  tokenizer : GramTokenizer
  minGram : Nat
  maxGram : Nat
  caseInsensitive : Bool
  deriving DecidableEq

/-- The longest sparse gram an index may hold, in codepoints. -/
def maxSparseGram : Nat := 64

def tokenizerName : GramTokenizer → String
  | .ngram => "ngram"
  | .sparse => "sparse"

def ciEquals (a b : String) : Bool := a.toList.map Char.toLower = b.toList.map Char.toLower

def parseTokenizer (name fn : String) : Except String GramTokenizer :=
  if ciEquals name "ngram" then .ok .ngram
  else if ciEquals name "sparse" then .ok .sparse
  else .error s!"{fn}: tokenizer must be 'ngram' or 'sparse', got '{name}'"

def validateGramOptions (options : GramOptions) (fn : String) : Except String Unit :=
  match options.tokenizer with
  | .ngram =>
      if options.minGram < 1 ∨ options.maxGram ≠ options.minGram then
        .error s!"{fn}: an ngram tokenizer needs one gram size of at least 1"
      else .ok ()
  | .sparse =>
      if options.minGram < 3 then
        .error s!"{fn}: min_gram must be at least 3 for the sparse tokenizer, got {options.minGram}"
      else if options.maxGram < options.minGram ∨ options.maxGram > maxSparseGram then
        .error (s!"{fn}: max_gram must lie between min_gram ({options.minGram}) and " ++
          s!"{maxSparseGram}, got {options.maxGram}")
      else .ok ()

/-- The last input's normalized text and codepoint boundaries. -/
structure GramScratch where
  normalized : List UInt8
  offsets : List Nat
  deriving DecidableEq

def asciiToLower (byte : UInt8) : UInt8 := if 65 ≤ byte ∧ byte ≤ 90 then byte + 32 else byte

/-- CodepointToUtf8, which fails outside the encodable codepoints. -/
def codepointToUtf8 (codepoint : Nat) : Option (List UInt8) :=
  if codepoint.isValidChar then some (String.utf8EncodeChar (Char.ofNat codepoint)) else none

def foldedBytes (lower : Char → Nat) (options : GramOptions) (codepoint : Char)
    (original : List UInt8) : List UInt8 :=
  let folded := if options.caseInsensitive then lower codepoint else codepoint.toNat
  match codepointToUtf8 folded with
  | some utf8 => utf8
  | none => original

def normalizeFrom (lower : Char → Nat) (options : GramOptions) :
    List UInt8 → GramScratch → Except String GramScratch
  | [], scratch => .ok { scratch with offsets := scratch.offsets ++ [scratch.normalized.length] }
  | byte :: rest, scratch =>
      let offsets := scratch.offsets ++ [scratch.normalized.length]
      if byte < 0x80 then
        let c := if options.caseInsensitive then asciiToLower byte else byte
        normalizeFrom lower options rest ⟨scratch.normalized ++ [c], offsets⟩
      else
        match Utf8.decodeFirst (byte :: rest) with
        | none => .error "invalid UTF-8"
        | some codepoint =>
            let size := codepoint.utf8Size
            let utf8 := foldedBytes lower options codepoint ((byte :: rest).take size)
            normalizeFrom lower options (rest.drop (size - 1)) ⟨scratch.normalized ++ utf8, offsets⟩
  termination_by data => data.length

def normalizeString (lower : Char → Nat) (data : List UInt8) (options : GramOptions) :
    Except String GramScratch :=
  normalizeFrom lower options data ⟨[], []⟩

/-- MurmurHash3's 64-bit finalizer. -/
def fmix64 (value : UInt64) : UInt64 :=
  let value := value ^^^ (value >>> 33)
  let value := value * 0xff51afd7ed558ccd
  let value := value ^^^ (value >>> 33)
  let value := value * 0xc4ceb9fe1a85ec53
  value ^^^ (value >>> 33)

/-- The normalized bytes of the codepoints from `first` to before `finish`. -/
def GramScratch.bytes (scratch : GramScratch) (first finish : Nat) : List UInt8 :=
  (scratch.normalized.drop (scratch.offsets.getD first 0)).take
    (scratch.offsets.getD finish 0 - scratch.offsets.getD first 0)

def packed (scratch : GramScratch) (codepoint : Nat) : UInt64 :=
  (scratch.bytes codepoint (codepoint + 1)).foldl
    (fun value byte => (value <<< 8) ||| byte.toUInt64) 0

def sparseWindowWeight (scratch : GramScratch) (first count : Nat) : UInt64 :=
  (List.range' 2 (count - 2)).foldl
    (fun weight i => fmix64 (weight ^^^ packed scratch (first + i)))
    (fmix64 ((packed scratch first <<< 32) ||| packed scratch (first + 1)))

/-- The codepoint ranges of every gram of a normalized text, duplicates
    included: its windows in order, or the pairs of the stack of windows. -/
def gramRanges (scratch : GramScratch) (options : GramOptions) : List (Nat × Nat) :=
  let codepoints := scratch.offsets.length - 1
  if codepoints < options.minGram then []
  else
    match options.tokenizer with
    | .ngram =>
        (List.range (codepoints + 1 - options.minGram)).map fun i => (i, i + options.minGram)
    | .sparse =>
        let span := options.minGram - 1
        (scan (fun right => sparseWindowWeight scratch right span) options.maxGram span
          (codepoints + 1 - span)).1

def extractGramRanges (lower : Char → Nat) (data : List UInt8) (options : GramOptions) :
    Except String (GramScratch × List (Nat × Nat)) := do
  let scratch ← normalizeString lower data options
  .ok (scratch, gramRanges scratch options)

structure Uhugeint where
  upper : UInt64
  lower : UInt64
  deriving DecidableEq

/-- Upper halves first, as the key comparison of GramKeysFunction orders. -/
instance : LinearOrder Uhugeint :=
  LinearOrder.lift' (fun key => toLex (key.upper, key.lower)) fun a b same => by
    cases a
    cases b
    simpa using same

structure GramKeyMask where
  upper : UInt64 := 0xFFFFFFFFFFFFFFFF
  lower : UInt64 := 0xFFFFFFFFFFFFFFFF

/-- Grams up to this many bytes are byte-packed; longer ones are hashed. -/
def packedKeyBytes : Nat := 16

def fnv1a (data : List UInt8) : UInt64 :=
  data.foldl (fun hash byte => (hash ^^^ byte.toUInt64) * 1099511628211) 14695981039346656037

/-- The bytes numbered from `start` on, the first of them in the highest byte. -/
def packHalf (start : Nat) (data : List UInt8) : UInt64 :=
  (List.range 8).foldl
    (fun half i => half ||| ((data.getD (start + i) 0).toUInt64 <<< UInt64.ofNat ((7 - i) * 8))) 0

def gramKey (data : List UInt8) (mask : GramKeyMask) : Uhugeint :=
  if data.length ≤ packedKeyBytes then ⟨packHalf 0 data &&& mask.upper, packHalf 8 data &&& mask.lower⟩
  else ⟨0xFFFFFFFFFFFFFFFF &&& mask.upper, fnv1a data &&& mask.lower⟩

def sparseBucketKeyUpper : UInt64 := 0xFFFFFFFFFFFFFFFE

def sparseBucketBits : Nat := 20

def tokenizedGramKey (options : GramOptions) (scratch : GramScratch) (first finish : Nat)
    (mask : GramKeyMask) : Uhugeint :=
  let data := scratch.bytes first finish
  if options.tokenizer = .ngram ∨ finish - first = options.minGram then gramKey data mask
  else
    let bucket := fmix64 (fnv1a data) >>> UInt64.ofNat (64 - sparseBucketBits)
    ⟨sparseBucketKeyUpper &&& mask.upper, bucket &&& mask.lower⟩

/-- The keys of a query's distinct grams in first-occurrence order. -/
structure NeedleKeys where
  keys : List Uhugeint
  distinct : keys.Nodup

def NeedleKeys.empty : NeedleKeys := ⟨[], List.nodup_nil⟩

/-- Adding a key, or none when it would exceed `maxKeys` distinct keys. -/
def NeedleKeys.add (needle : NeedleKeys) (key : Uhugeint) (maxKeys : Nat) : Option NeedleKeys :=
  if present : key ∈ needle.keys then some needle
  else if needle.keys.length ≥ maxKeys then none
  else some ⟨needle.keys ++ [key], by
    apply List.nodup_append.mpr
    refine ⟨needle.distinct, List.nodup_singleton key, ?_⟩
    intro a inside b added same
    rw [List.mem_singleton.mp added] at same
    exact present (same ▸ inside)⟩

/-- Adding keys until one exceeds the budget, and whether none did. -/
def NeedleKeys.addAll (maxKeys : Nat) : NeedleKeys → List Uhugeint → Bool × NeedleKeys
  | needle, [] => (true, needle)
  | needle, key :: rest =>
      match needle.add key maxKeys with
      | none => (false, needle)
      | some grown => NeedleKeys.addAll maxKeys grown rest

inductive NeedleShape
  | probeable
  | tooShort
  | overBudget
  deriving DecidableEq

def needleBytesPerKey : GramTokenizer → Nat
  | .ngram => 16
  | .sparse => 4

/-- A gram retires the kept grams that start at or after it. -/
def keepCovering (covering : List (Nat × Nat)) (range : Nat × Nat) : List (Nat × Nat) :=
  range :: covering.dropWhile fun kept => kept.1 ≥ range.1

def decomposeNeedle (lower : Char → Nat) (mask : GramKeyMask) (data : List UInt8)
    (options : GramOptions) (maxKeys : Nat) (keys : NeedleKeys) :
    Except String (NeedleShape × NeedleKeys) := do
  if data.length > needleBytesPerKey options.tokenizer * maxKeys % 2 ^ 64 then
    .ok (.overBudget, keys)
  else
    let (scratch, ranges) ← extractGramRanges lower data options
    match options.tokenizer with
    | .ngram =>
        let added := keys.addAll maxKeys (ranges.map fun r => gramKey (scratch.bytes r.1 r.2) mask)
        if ¬ added.1 then .ok (.overBudget, added.2)
        else .ok (if ranges = [] then .tooShort else .probeable, added.2)
    | .sparse =>
        let covering := (ranges.foldl keepCovering []).reverse
        if covering = [] then .ok (.tooShort, keys)
        else
          let added := keys.addAll maxKeys
            (covering.map fun r => tokenizedGramKey options scratch r.1 r.2 mask)
          .ok (if added.1 then .probeable else .overBudget, added.2)

/-- Keys that order like 64-bit integers. -/
def sortCodeFits (key : Uhugeint) : Bool :=
  (key.lower = 0 ∧ key.upper &&& 0xFFFFFFFF = 0) ∨
    (key.upper = sparseBucketKeyUpper ∧ key.lower ≤ 0xFFFFFFFF)

def sortCode (key : Uhugeint) : UInt64 :=
  if key.upper = sparseBucketKeyUpper then 0x100000000 + key.lower else key.upper >>> 32

def fromSortCode (code : UInt64) : Uhugeint :=
  if code >>> 32 ≠ 0 then ⟨sparseBucketKeyUpper, code - 0x100000000⟩ else ⟨code <<< 32, 0⟩

/-- The distinct keys in ascending order, sorted as integers where all fit. -/
def distinctKeys (keys : List Uhugeint) : List Uhugeint :=
  if keys.all sortCodeFits then (sortUnique (keys.map sortCode)).map fromSortCode
  else sortUnique keys

structure GramKeysRow where
  text : Option (List UInt8)
  tokenizer : Option String
  minGram : Option Int
  maxGram : Option Int
  caseInsensitive : Option Bool

/-- The tokenizer and the options last read, kept from row to row. -/
structure GramKeysCache where
  tokenizer : Option (String × GramTokenizer)
  options : Option GramOptions

def GramKeysCache.tokenizerOf (cache : GramKeysCache) (name : String) : Except String GramTokenizer :=
  match cache.tokenizer with
  | some (known, tokenizer) =>
      if known = name then .ok tokenizer else parseTokenizer name "ngram_gram_keys"
  | none => parseTokenizer name "ngram_gram_keys"

def GramKeysCache.validate (cache : GramKeysCache) (options : GramOptions) : Except String Unit :=
  if cache.options = some options then .ok () else validateGramOptions options "ngram_gram_keys"

def gramKeysRow (lower : Char → Nat) (mask : GramKeyMask) (cache : GramKeysCache)
    (row : GramKeysRow) : Except String (GramKeysCache × Option (List Uhugeint)) :=
  match row.text, row.tokenizer, row.minGram, row.maxGram, row.caseInsensitive with
  | some text, some name, some minGram, some maxGram, some caseInsensitive => do
      let tokenizer ← cache.tokenizerOf name
      let options : GramOptions := ⟨tokenizer, (max minGram 0).toNat, (max maxGram 0).toNat, caseInsensitive⟩
      cache.validate options
      let (scratch, ranges) ← extractGramRanges lower text options
      let keys := ranges.map fun r => tokenizedGramKey options scratch r.1 r.2 mask
      .ok (⟨some (name, tokenizer), some options⟩, some (distinctKeys keys))
  | _, _, _, _, _ => .ok (cache, none)

def gramKeysRows (lower : Char → Nat) (mask : GramKeyMask) :
    GramKeysCache → List GramKeysRow → Except String (List (Option (List Uhugeint)))
  | _, [] => .ok []
  | cache, row :: rest => do
      let (cache, keys) ← gramKeysRow lower mask cache row
      let later ← gramKeysRows lower mask cache rest
      .ok (keys :: later)

/-- ngram_gram_keys: the keys of the distinct grams of each row's text. -/
def gramKeysFunction (lower : Char → Nat) (mask : GramKeyMask) (rows : List GramKeysRow) :
    Except String (List (Option (List Uhugeint))) :=
  gramKeysRows lower mask ⟨none, none⟩ rows

end NgramGram
