import NgramIndex.Postings

/- The packing aggregate. Its state keeps the offsets of one segment as a stream
   of varint codes, first inside the state and then in a list of blocks. Every
   write into a byte area is checked against the area's size here, so a run that
   would write past one ends in overrun. -/
namespace NgramPackSegment
open AscendingLists NgramPostings

def segmentShift : Nat := 20
def inlineBytes : Nat := 16
def firstBlockBytes : Nat := 48
def maxBlockBytes : Nat := 1008

inductive Failure where
  | invalidInput (message : String)
  | overrun
  deriving DecidableEq, Repr

def negativeInput : Failure :=
  .invalidInput "ngram_pack_segment: rowids must not be negative"
def otherSegment : Failure :=
  .invalidInput "ngram_pack_segment: the rowids of one group must lie in one segment"

def write (capacity : Nat) (bytes code : List UInt8) : Except Failure (List UInt8) :=
  if bytes.length + code.length ≤ capacity then .ok (bytes ++ code) else .error .overrun

structure RowidBlock where
  bytes : List UInt8
  capacity : Nat
  deriving DecidableEq, Repr

def newBlock (capacity : Nat) : RowidBlock := ⟨[], capacity⟩

inductive Storage where
  | inline (bytes : List UInt8)
  | blocks (first : List RowidBlock) (last : RowidBlock)
  deriving DecidableEq, Repr

structure EncodePostingsState where
  base : Nat
  last : Nat
  storage : Storage
  deriving DecidableEq, Repr

def initialized : EncodePostingsState := ⟨0, 0, .inline []⟩

def EncodePostingsState.isEmpty (s : EncodePostingsState) : Bool :=
  match s.storage with
  | .inline bytes => bytes.isEmpty
  | .blocks _ _ => false

def EncodePostingsState.inBlocks (s : EncodePostingsState) : Bool :=
  match s.storage with
  | .inline _ => false
  | .blocks _ _ => true

def varintSize (value : Nat) : Nat :=
  if value < 2 ^ 7 then 1 else if value < 2 ^ 14 then 2 else if value < 2 ^ 21 then 3
  else if value < 2 ^ 28 then 4 else 5

/-- The code zero restarts the stretch from offset zero when an offset descends. -/
def offsetCode (last offset : Nat) : List UInt8 :=
  if offset < last then 0 :: Leb128.encode (offset + 1) else Leb128.encode (offset - last + 1)

def offsetCodeSize (last offset : Nat) : Nat :=
  if offset < last then 1 + varintSize (offset + 1) else varintSize (offset - last + 1)

/-- DecodeStretch from the offset, code and shift it has accumulated. Offsets
    lie below 2^20, so the 32-bit code and offset of the source do not wrap. -/
def decodeFrom (offset code shift : Nat) : List UInt8 → List Nat
  | [] => []
  | byte :: rest =>
      if Leb128.continues byte then
        decodeFrom offset (code + Leb128.payload byte * 2 ^ shift) (shift + 7) rest
      else if code + Leb128.payload byte * 2 ^ shift = 0 then decodeFrom 0 0 0 rest
      else
        (offset + (code + Leb128.payload byte * 2 ^ shift - 1)) ::
          decodeFrom (offset + (code + Leb128.payload byte * 2 ^ shift - 1)) 0 0 rest

def decodeStretch (data : List UInt8) : List Nat := decodeFrom 0 0 0 data

/-- The offsets ForEachOffset emits. -/
def EncodePostingsState.offsets (s : EncodePostingsState) : List Nat :=
  match s.storage with
  | .inline bytes => decodeStretch bytes
  | .blocks first last => (first ++ [last]).flatMap fun block => decodeStretch block.bytes

/-- AppendOffset once the state owns blocks. -/
def appendToTail (s : EncodePostingsState) (first : List RowidBlock) (tail : RowidBlock)
    (offset : Nat) : Except Failure EncodePostingsState :=
  if tail.bytes.length + offsetCodeSize s.last offset > tail.capacity then do
    let block := newBlock (min (tail.capacity * 2) maxBlockBytes)
    -- A block's stretch starts from offset zero.
    let bytes ← write block.capacity block.bytes (offsetCode 0 offset)
    return { s with
      last := offset
      storage := .blocks (first ++ [tail]) { block with bytes := bytes } }
  else do
    let bytes ← write tail.capacity tail.bytes (offsetCode s.last offset)
    return { s with last := offset, storage := .blocks first { tail with bytes := bytes } }

def appendOffset (s : EncodePostingsState) (offset : Nat) : Except Failure EncodePostingsState :=
  match s.storage with
  | .inline bytes =>
      if bytes.length + offsetCodeSize s.last offset ≤ inlineBytes then do
        let bytes ← write inlineBytes bytes (offsetCode s.last offset)
        return { s with last := offset, storage := .inline bytes }
      else do
        let block := newBlock firstBlockBytes
        let moved ← write block.capacity block.bytes bytes
        appendToTail s [] { block with bytes := moved } offset
  | .blocks first tail => appendToTail s first tail offset

def segmentBase (rowid : Nat) : Nat := rowid >>> segmentShift <<< segmentShift

def appendRowid (s : EncodePostingsState) (rowid : Int) : Except Failure EncodePostingsState :=
  if rowid < 0 then .error negativeInput
  else
    let base := segmentBase rowid.toNat
    if s.isEmpty then appendOffset { s with base := base } (rowid.toNat - base)
    else if base ≠ s.base then .error otherSegment
    else appendOffset s (rowid.toNat - base)

inductive CombineMode where
  | preserveInput
  | allowDestructive
  deriving DecidableEq, Repr

/-- One row of EncodePostingsCombine: the target and the source afterwards. -/
def combine (mode : CombineMode) (source target : EncodePostingsState) :
    Except Failure (EncodePostingsState × EncodePostingsState) :=
  if source.isEmpty then .ok (target, source)
  else if !target.isEmpty && target.base ≠ source.base then .error otherSegment
  else
    let target := { target with base := source.base }
    match mode, source.storage with
    | .allowDestructive, .blocks first last =>
        match target.storage with
        | .blocks before tail =>
            .ok ({ target with last := source.last, storage := .blocks (before ++ tail :: first) last },
              initialized)
        | .inline _ => do
            -- The target's few inline offsets join the adopted list.
            let joined ← target.offsets.foldlM appendOffset
              { target with last := source.last, storage := source.storage }
            return (joined, initialized)
    | _, _ => do
        let target ← source.offsets.foldlM appendOffset target
        return (target, source)

def sortOffsets (offsets : List Nat) : List Nat := unique (mergeRuns (ascendingRuns offsets))

def encodeSortedOffsets (base : Nat) : List Nat → Except Failure (List UInt8)
  | [] => .error .overrun
  | offset :: rest => do
      let size := 1 + 10 + 10 + 3 * (rest.length + 1)
      let out ← write size [] [postingsFormatVersion]
      let out ← write size out (Leb128.encode (rest.length + 1))
      let out ← write size out (Leb128.encode (base + offset))
      (deltas offset rest).foldlM (fun out delta => write size out (Leb128.encode delta)) out

structure PackedSegment where
  postings : List UInt8
  rowidCount : Int
  minRowid : Int
  maxRowid : Int
  deriving DecidableEq, Repr

/-- A group that no row reached has no segment to describe. -/
def finalize (s : EncodePostingsState) : Except Failure (Option PackedSegment) :=
  if s.isEmpty then .ok none
  else do
    let offsets := sortOffsets s.offsets
    let postings ← encodeSortedOffsets s.base offsets
    return some {
      postings := postings
      rowidCount := offsets.length
      minRowid := s.base + offsets.headD 0
      maxRowid := s.base + offsets.getLastD 0 }

theorem varintSize_eq {value : Nat} (fits : value < 2 ^ 35) :
    varintSize value = (Leb128.encode value).length := by
  have at_most : ∀ k, value < 128 ^ (k + 1) → (Leb128.encode value).length ≤ k + 1 :=
    fun k => Leb128.encode_length_le k value
  have at_least : ∀ k, 128 ^ k ≤ value → k + 1 ≤ (Leb128.encode value).length :=
    fun k => Leb128.le_encode_length k value
  have one := Leb128.encode_length_pos value
  simp only [varintSize]
  split
  · have upper := at_most 0 (by omega)
    omega
  split
  · have upper := at_most 1 (by omega)
    have lower := at_least 1 (by omega)
    omega
  split
  · have upper := at_most 2 (by omega)
    have lower := at_least 2 (by omega)
    omega
  split
  · have upper := at_most 3 (by omega)
    have lower := at_least 3 (by omega)
    omega
  · have upper := at_most 4 (by omega)
    have lower := at_least 4 (by omega)
    omega

theorem offsetCodeSize_eq {last offset : Nat} (fits : offset < 2 ^ 20) :
    offsetCodeSize last offset = (offsetCode last offset).length := by
  simp only [offsetCodeSize, offsetCode]
  split
  · rw [varintSize_eq (by omega), List.length_cons]
    omega
  · rw [varintSize_eq (by omega)]

/-- An offset below 2^20 takes three bytes, and a restart one more. -/
theorem offsetCode_length_le {last offset : Nat} (fits : offset < 2 ^ 20) :
    (offsetCode last offset).length ≤ 4 := by
  simp only [offsetCode]
  split
  · have short := Leb128.encode_length_le 2 (offset + 1) (by omega)
    simp only [List.length_cons]
    omega
  · have short := Leb128.encode_length_le 2 (offset - last + 1) (by omega)
    omega

theorem decode_code (offset code shift v : Nat) (more : List UInt8)
    (positive : 0 < code + v * 2 ^ shift) :
    decodeFrom offset code shift (Leb128.encode v ++ more) =
      (offset + (code + v * 2 ^ shift - 1)) ::
        decodeFrom (offset + (code + v * 2 ^ shift - 1)) 0 0 more := by
  induction v using Nat.strongRecOn generalizing code shift with
  | ind v ih =>
    by_cases small : v < 128
    · simp only [Leb128.encode_small small, List.singleton_append, decodeFrom,
        Leb128.payload_last small, Leb128.continues_last small, Bool.false_eq_true, if_false,
        if_neg (Nat.ne_of_gt positive)]
    · have large : 128 ≤ v := Nat.le_of_not_lt small
      have split := Leb128.split_value v shift
      have sum : code + v % 128 * 2 ^ shift + v / 128 * 2 ^ (shift + 7) = code + v * 2 ^ shift := by
        omega
      simp only [Leb128.encode_large large, List.cons_append, decodeFrom, Leb128.payload_more,
        Leb128.continues_more, if_true]
      rw [ih (v / 128) (by omega) _ _ (by omega), sum]

/-- The bytes decode to these offsets and leave the decoder at the last one,
    whatever bytes are appended after them. -/
def Reads (bytes : List UInt8) (offsets : List Nat) (last : Nat) : Prop :=
  ∀ more, decodeFrom 0 0 0 (bytes ++ more) = offsets ++ decodeFrom last 0 0 more

theorem reads_nil : Reads [] [] 0 := fun _ => rfl

theorem reads_append {bytes : List UInt8} {offsets : List Nat} {last : Nat}
    (reads : Reads bytes offsets last) (offset : Nat) :
    Reads (bytes ++ offsetCode last offset) (offsets ++ [offset]) offset := by
  intro more
  rw [List.append_assoc, reads, offsetCode]
  split
  · have restart : decodeFrom last 0 0 (0 :: Leb128.encode (offset + 1) ++ more) =
        decodeFrom 0 0 0 (Leb128.encode (offset + 1) ++ more) := rfl
    rw [restart, decode_code 0 0 0 (offset + 1) more (by omega)]
    simp
  · rename_i ascends
    rw [decode_code last 0 0 (offset - last + 1) more (by omega)]
    have sum : last + (0 + (offset - last + 1) * 2 ^ 0 - 1) = offset := by omega
    rw [sum, List.append_assoc]
    rfl

theorem reads_decode {bytes : List UInt8} {offsets : List Nat} {last : Nat}
    (reads : Reads bytes offsets last) : decodeStretch bytes = offsets := by
  have whole := reads []
  rw [List.append_nil] at whole
  rw [decodeStretch, whole]
  simp [decodeFrom]

theorem write_ok {capacity : Nat} {bytes code : List UInt8}
    (fits : bytes.length + code.length ≤ capacity) : write capacity bytes code = .ok (bytes ++ code) := by
  rw [write, if_pos fits]

def RowidBlock.fits (block : RowidBlock) : Prop :=
  block.bytes.length ≤ block.capacity ∧ firstBlockBytes ≤ block.capacity

/-- Each stretch is inside its area, the last one leaves the decoder at last,
    and a state with bytes has an offset. -/
inductive Stream : Storage → Nat → List Nat → Prop where
  | inline {bytes : List UInt8} {offsets : List Nat} {last : Nat}
      (room : bytes.length ≤ inlineBytes) (reads : Reads bytes offsets last)
      (started : bytes = [] ∨ offsets ≠ []) : Stream (.inline bytes) last offsets
  | blocks {first : List RowidBlock} {tail : RowidBlock} {recent : List Nat} {last : Nat}
      (room : ∀ block ∈ first, block.fits) (tail_room : tail.fits)
      (reads : Reads tail.bytes recent last)
      (started : first.flatMap (fun block => decodeStretch block.bytes) ++ recent ≠ []) :
      Stream (.blocks first tail) last
        (first.flatMap (fun block => decodeStretch block.bytes) ++ recent)

structure Sound (s : EncodePostingsState) : Prop where
  stream : Stream s.storage s.last s.offsets
  small : ∀ offset ∈ s.offsets, offset < 2 ^ segmentShift

theorem stream_offsets {s : EncodePostingsState} {offsets : List Nat}
    (stream : Stream s.storage s.last offsets) : s.offsets = offsets := by
  obtain ⟨base, last, storage⟩ := s
  cases stream with
  | inline room reads started => exact reads_decode reads
  | blocks room tail_room reads started =>
    simp [EncodePostingsState.offsets, reads_decode reads]

theorem initialized_sound : Sound initialized where
  stream := Stream.inline (by simp) reads_nil (Or.inl rfl)
  small := by simp [initialized, EncodePostingsState.offsets, decodeStretch, decodeFrom]

@[simp] theorem initialized_isEmpty : initialized.isEmpty = true := rfl

@[simp] theorem initialized_offsets : initialized.offsets = [] := rfl

theorem isEmpty_iff {s : EncodePostingsState} (sound : Sound s) :
    s.isEmpty = true ↔ s.offsets = [] := by
  have stream := sound.stream
  obtain ⟨base, last, storage⟩ := s
  generalize kept : (EncodePostingsState.mk base last storage).offsets = offsets at stream
  cases stream with
  | inline room reads started =>
    simp only [EncodePostingsState.isEmpty, List.isEmpty_iff]
    constructor
    · rintro rfl
      rw [← reads_decode reads]
      rfl
    · intro none_read
      exact started.resolve_right (fun some_read => some_read none_read)
  | blocks room tail_room reads started => simpa [EncodePostingsState.isEmpty] using started

theorem appendToTail_spec {s : EncodePostingsState} {first : List RowidBlock} {tail : RowidBlock}
    {recent : List Nat} {offset : Nat} (room : ∀ block ∈ first, block.fits) (tail_room : tail.fits)
    (reads : Reads tail.bytes recent s.last) (fits : offset < 2 ^ segmentShift) :
    ∃ storage, appendToTail s first tail offset = .ok ⟨s.base, offset, storage⟩ ∧
      Stream storage offset
        (first.flatMap (fun block => decodeStretch block.bytes) ++ recent ++ [offset]) := by
  obtain ⟨inside, grown⟩ := tail_room
  rw [appendToTail, offsetCodeSize_eq fits]
  split
  · have short : (offsetCode 0 offset).length ≤ 4 := offsetCode_length_le fits
    have capacity : firstBlockBytes ≤ min (tail.capacity * 2) maxBlockBytes := by
      simp only [firstBlockBytes, maxBlockBytes] at grown ⊢
      omega
    have room_left : ([] : List UInt8).length + (offsetCode 0 offset).length ≤
        min (tail.capacity * 2) maxBlockBytes := by
      simp only [firstBlockBytes, List.length_nil] at capacity ⊢
      omega
    refine ⟨.blocks (first ++ [tail]) ⟨offsetCode 0 offset, min (tail.capacity * 2) maxBlockBytes⟩,
      ?_, ?_⟩
    · simp only [newBlock, write_ok room_left, bind, Except.bind, pure, Except.pure, List.nil_append]
    · have all_room : ∀ block ∈ first ++ [tail], block.fits := by
        intro block present
        rcases List.mem_append.mp present with early | late
        · exact room block early
        · obtain rfl := List.mem_singleton.mp late
          exact ⟨inside, grown⟩
      have fresh : Reads (offsetCode 0 offset) [offset] offset := reads_append reads_nil offset
      have next_room : RowidBlock.fits
          ⟨offsetCode 0 offset, min (tail.capacity * 2) maxBlockBytes⟩ :=
        ⟨by simpa using room_left, capacity⟩
      have stream := Stream.blocks all_room next_room fresh (by simp)
      simpa [reads_decode reads] using stream
  · rename_i enough
    have room_left : tail.bytes.length + (offsetCode s.last offset).length ≤ tail.capacity := by omega
    refine ⟨.blocks first ⟨tail.bytes ++ offsetCode s.last offset, tail.capacity⟩, ?_, ?_⟩
    · simp only [write_ok room_left, bind, Except.bind, pure, Except.pure]
    · have next_room : RowidBlock.fits ⟨tail.bytes ++ offsetCode s.last offset, tail.capacity⟩ :=
        ⟨by simpa using room_left, grown⟩
      have stream := Stream.blocks room next_room (reads_append reads offset) (by simp)
      simpa [List.append_assoc] using stream

theorem appendOffset_spec {s : EncodePostingsState} {offset : Nat} (sound : Sound s)
    (fits : offset < 2 ^ segmentShift) :
    ∃ t, appendOffset s offset = .ok t ∧ Sound t ∧ t.offsets = s.offsets ++ [offset] ∧
      t.base = s.base := by
  suffices appended : ∃ storage, appendOffset s offset = .ok ⟨s.base, offset, storage⟩ ∧
      Stream storage offset (s.offsets ++ [offset]) by
    obtain ⟨storage, ok, stream⟩ := appended
    have offsets_eq : (⟨s.base, offset, storage⟩ : EncodePostingsState).offsets =
        s.offsets ++ [offset] := stream_offsets stream
    refine ⟨_, ok, ⟨by rw [offsets_eq]; exact stream, ?_⟩, offsets_eq, rfl⟩
    rw [offsets_eq]
    intro o present
    rcases List.mem_append.mp present with old | new
    · exact sound.small o old
    · obtain rfl := List.mem_singleton.mp new
      exact fits
  have stream := sound.stream
  generalize s.offsets = offsets at stream
  obtain ⟨base, last, storage⟩ := s
  simp only at stream
  cases stream with
  | @inline bytes _ _ room reads started =>
    simp only [appendOffset, offsetCodeSize_eq fits]
    split
    · rename_i enough
      refine ⟨.inline (bytes ++ offsetCode last offset), ?_, ?_⟩
      · simp only [write_ok enough, bind, Except.bind, pure, Except.pure]
      · exact Stream.inline (by simpa using enough) (reads_append reads offset) (by simp)
    · have moved : ([] : List UInt8).length + bytes.length ≤ firstBlockBytes := by
        simp only [inlineBytes, firstBlockBytes, List.length_nil] at room ⊢
        omega
      simp only [newBlock, write_ok moved, bind, Except.bind, List.nil_append]
      have spec := @appendToTail_spec ⟨base, last, .inline bytes⟩ [] ⟨bytes, firstBlockBytes⟩
        _ offset (by simp) ⟨by simpa using moved, Nat.le_refl _⟩ reads fits
      simpa using spec
  | blocks room tail_room reads started =>
    exact appendToTail_spec (s := ⟨base, last, _⟩) room tail_room reads fits

theorem appendOffsets_spec (added : List Nat) {s : EncodePostingsState} (sound : Sound s)
    (fits : ∀ offset ∈ added, offset < 2 ^ segmentShift) :
    ∃ t, added.foldlM appendOffset s = .ok t ∧ Sound t ∧ t.offsets = s.offsets ++ added ∧
      t.base = s.base := by
  induction added generalizing s with
  | nil => exact ⟨s, rfl, sound, by simp, rfl⟩
  | cons offset added ih =>
    obtain ⟨t, first, t_sound, t_offsets, t_base⟩ := appendOffset_spec sound (fits offset (by simp))
    obtain ⟨u, rest, u_sound, u_offsets, u_base⟩ := ih t_sound (fun o ho => fits o (by simp [ho]))
    refine ⟨u, ?_, u_sound, by simp [u_offsets, t_offsets], u_base.trans t_base⟩
    simp only [List.foldlM_cons, first, bind, Except.bind]
    exact rest

theorem adopted_sound {base last source_last : Nat} {before first : List RowidBlock}
    {tail final : RowidBlock} {held taken : List Nat}
    (source_stream : Stream (.blocks first final) source_last taken)
    (target_stream : Stream (.blocks before tail) last held)
    (taken_small : ∀ o ∈ taken, o < 2 ^ segmentShift) (held_small : ∀ o ∈ held, o < 2 ^ segmentShift) :
    Sound ⟨base, source_last, .blocks (before ++ tail :: first) final⟩ := by
  cases source_stream with
  | @blocks _ _ recent _ room final_room reads started =>
    cases target_stream with
    | @blocks _ _ older _ before_room tail_room older_reads _ =>
      have all_room : ∀ block ∈ before ++ tail :: first, block.fits := by
        intro block present
        rcases List.mem_append.mp present with early | late
        · exact before_room block early
        · rcases List.mem_cons.mp late with rfl | later
          · exact tail_room
          · exact room block later
      have stream := Stream.blocks all_room final_room reads (by
        simp only [List.flatMap_append, List.flatMap_cons, List.append_assoc]
        simp only [ne_eq, List.append_eq_nil_iff] at started ⊢
        tauto)
      have offsets_eq := stream_offsets (s := ⟨base, source_last, .blocks (before ++ tail :: first) final⟩)
        stream
      refine ⟨by rw [offsets_eq]; exact stream, ?_⟩
      rw [offsets_eq]
      intro o present
      simp only [List.flatMap_append, List.flatMap_cons, List.mem_append, reads_decode older_reads]
        at present
      have old := held_small o
      have new := taken_small o
      simp only [List.mem_append] at old new
      tauto

/-- The combine of two states of one segment loses and repeats no offset: its
    source is left alone, or it is drained and all it held is in the target. -/
theorem combine_spec (mode : CombineMode) {source target : EncodePostingsState}
    (source_sound : Sound source) (target_sound : Sound target)
    (one_segment : source.offsets = [] ∨ target.offsets = [] ∨ source.base = target.base) :
    ∃ t s, combine mode source target = .ok (t, s) ∧ Sound t ∧
      t.offsets.Perm (target.offsets ++ source.offsets) ∧
      (t.base = if source.isEmpty then target.base else source.base) ∧
      s = if mode = .allowDestructive ∧ source.inBlocks then initialized else source := by
  have source_empty := isEmpty_iff source_sound
  have target_empty := isEmpty_iff target_sound
  cases drained : source.isEmpty with
  | true =>
    have nothing := source_empty.mp drained
    have not_blocks : source.inBlocks = false := by
      obtain ⟨base, last, storage⟩ := source
      cases storage with
      | inline bytes => rfl
      | blocks first tail => simp [EncodePostingsState.isEmpty] at drained
    refine ⟨target, source, by simp [combine, drained], target_sound, by simp [nothing], by simp, ?_⟩
    simp [not_blocks]
  | false =>
    have some_offset : source.offsets ≠ [] := by
      intro nothing
      simp [source_empty.mpr nothing] at drained
    have agree : (!target.isEmpty && target.base ≠ source.base) = false := by
      rcases one_segment with h | h | h
      · exact absurd h some_offset
      · simp [target_empty.mpr h]
      · simp [h]
    have rebased : Sound { target with base := source.base } :=
      ⟨target_sound.stream, target_sound.small⟩
    simp only [combine, drained, agree, Bool.false_eq_true, if_false]
    have appended := appendOffsets_spec source.offsets rebased source_sound.small
    obtain ⟨t, ok, sound, offsets_eq, base_eq⟩ := appended
    cases mode with
    | preserveInput =>
      refine ⟨t, source, ?_, sound, by rw [offsets_eq]; exact List.Perm.refl _, base_eq, by simp⟩
      simp only [ok, bind, Except.bind, pure, Except.pure]
    | allowDestructive =>
      cases kept : source.storage with
      | inline bytes =>
        have not_blocks : source.inBlocks = false := by simp [EncodePostingsState.inBlocks, kept]
        refine ⟨t, source, ?_, sound, by rw [offsets_eq]; exact List.Perm.refl _, base_eq,
          by simp [not_blocks]⟩
        simp only [ok, bind, Except.bind, pure, Except.pure]
      | blocks first last =>
        have in_blocks : source.inBlocks = true := by simp [EncodePostingsState.inBlocks, kept]
        have source_stream := source_sound.stream
        cases target_kept : target.storage with
        | blocks before tail =>
          refine ⟨_, initialized, rfl, ?_, ?_, rfl, by simp [in_blocks]⟩
          · have target_stream := target_sound.stream
            rw [kept] at source_stream
            rw [target_kept] at target_stream
            exact adopted_sound source_stream target_stream source_sound.small target_sound.small
          · simp [EncodePostingsState.offsets, kept, target_kept]
        | inline bytes =>
          have adopted : Sound { target with base := source.base, last := source.last, storage := source.storage } :=
            ⟨source_stream, source_sound.small⟩
          obtain ⟨u, joined, u_sound, u_offsets, u_base⟩ :=
            appendOffsets_spec target.offsets adopted target_sound.small
          refine ⟨u, initialized, ?_, u_sound, ?_, u_base, by simp [in_blocks]⟩
          · have same : EncodePostingsState.offsets ⟨source.base, target.last, .inline bytes⟩ =
                target.offsets := by
              rw [← target_kept]
              rfl
            have run : target.offsets.foldlM appendOffset ⟨source.base, source.last, .blocks first last⟩ =
                .ok u := by
              rw [← kept]
              exact joined
            simp only [same, run, bind, Except.bind, pure, Except.pure]
          · rw [u_offsets]
            exact List.perm_append_comm

theorem deltas_shift (base previous : Nat) (offsets : List Nat) :
    deltas (base + previous) (offsets.map (base + ·)) = deltas previous offsets := by
  induction offsets generalizing previous with
  | nil => rfl
  | cons offset offsets ih =>
    simp only [List.map_cons, deltas, ih]
    congr 1
    omega

theorem deltas_lt {bound : Nat} {offsets : List Nat} (previous : Nat)
    (small : ∀ offset ∈ offsets, offset < bound) : ∀ delta ∈ deltas previous offsets, delta < bound := by
  induction offsets generalizing previous with
  | nil => simp [deltas]
  | cons offset offsets ih =>
    intro delta present
    rcases List.mem_cons.mp present with rfl | later
    · have fits := small offset (by simp)
      omega
    · exact ih offset (fun o ho => small o (by simp [ho])) delta later

theorem writes_ok {size : Nat} (values : List Nat) (out : List UInt8)
    (small : ∀ v ∈ values, v < 2 ^ segmentShift) (room : out.length + 3 * values.length ≤ size) :
    values.foldlM (fun out v => write size out (Leb128.encode v)) out =
      .ok (out ++ values.flatMap Leb128.encode) := by
  induction values generalizing out with
  | nil =>
    simp only [List.foldlM_nil, List.flatMap_nil, List.append_nil]
    rfl
  | cons v values ih =>
    have fits : v < 2 ^ segmentShift := small v (by simp)
    have short := Leb128.encode_length_le 2 v (by simp only [segmentShift] at fits; omega)
    simp only [List.length_cons] at room
    simp only [List.foldlM_cons, bind, Except.bind]
    rw [write_ok (by omega)]
    simp only
    rw [ih (out ++ Leb128.encode v) (fun u hu => small u (by simp [hu]))
      (by simp only [List.length_append]; omega)]
    simp

theorem offsets_length_le {offsets : List Nat} (asc : Ascending offsets)
    (small : ∀ offset ∈ offsets, offset < 2 ^ segmentShift) : offsets.length ≤ 2 ^ segmentShift := by
  exact @window_length offsets 0 _ (ascending_nodup asc) fun o ho =>
    ⟨Nat.zero_le o, by simpa using small o ho⟩

theorem encodeSortedOffsets_spec {base : Nat} {offsets : List Nat} (asc : Ascending offsets)
    (nonempty : offsets ≠ []) (small : ∀ offset ∈ offsets, offset < 2 ^ segmentShift)
    (base_small : base < 2 ^ 63) :
    encodeSortedOffsets base offsets = .ok (blobOf (offsets.map (base + ·))) := by
  have count := offsets_length_le asc small
  cases offsets with
  | nil => exact absurd rfl nonempty
  | cons offset rest =>
    have fits := small offset (by simp)
    simp only [segmentShift] at fits count
    simp only [List.length_cons] at count
    have count_short := Leb128.encode_length_le 9 (rest.length + 1) (by omega)
    have first_short := Leb128.encode_length_le 9 (base + offset) (by omega)
    have rest_small := deltas_lt offset (fun o ho => small o (List.mem_cons_of_mem _ ho))
    have rest_length := deltas_length offset rest
    simp only [encodeSortedOffsets, bind, Except.bind]
    rw [write_ok (by simp only [List.length_nil, List.length_singleton]; omega)]
    simp only [List.nil_append]
    rw [write_ok (by simp only [List.length_singleton]; omega)]
    simp only
    rw [write_ok (by simp only [List.length_append, List.length_singleton]; omega)]
    simp only
    rw [writes_ok _ _ rest_small (by
      simp only [List.length_append, List.length_singleton, rest_length]
      omega)]
    simp [blobOf, deltas, deltas_shift]

/-- The segment row of a set of rowids, from the codec of ngram_encode_postings. -/
structure Describes (packed : PackedSegment) (rowids : List Int) : Prop where
  postings : encodePostings rowids = .ok packed.postings
  rowidCount : packed.rowidCount = (sortUnique rowids).length
  minRowid : packed.minRowid ∈ rowids ∧ ∀ r ∈ rowids, packed.minRowid ≤ r
  maxRowid : packed.maxRowid ∈ rowids ∧ ∀ r ∈ rowids, r ≤ packed.maxRowid

theorem described_offsets {base : Nat} {offsets : List Nat} {rowids : List Int}
    (asc : Ascending offsets) (nonempty : offsets ≠ [])
    (same : ∀ r, r ∈ rowids ↔ ∃ o ∈ offsets, (base : Int) + o = r) :
    Describes ⟨blobOf (offsets.map (base + ·)), offsets.length, base + offsets.headD 0,
      base + offsets.getLastD 0⟩ rowids where
  postings := by
    have settled : ∀ r ∈ rowids, 0 ≤ r := by
      intro r present
      obtain ⟨o, _, rfl⟩ := (same r).mp present
      omega
    rw [encodePostings_ok settled]
    congr 2
    refine sortUnique_eq (List.pairwise_map.mpr (asc.imp fun lt => by omega)) fun x => ?_
    simp only [List.mem_map, same]
    constructor
    · rintro ⟨_, ⟨o, ho, rfl⟩, rfl⟩
      exact ⟨o, ho, by omega⟩
    · rintro ⟨o, ho, rfl⟩
      exact ⟨_, ⟨o, ho, rfl⟩, by omega⟩
  rowidCount := by
    have listed : sortUnique rowids = offsets.map fun o : Nat => (base : Int) + o := by
      refine sortUnique_eq (List.pairwise_map.mpr (asc.imp fun lt => by omega)) fun r => ?_
      simp only [same, List.mem_map]
    simp [listed]
  minRowid := by
    obtain ⟨o, rest, rfl⟩ := List.exists_cons_of_ne_nil nonempty
    refine ⟨(same _).mpr ⟨o, by simp, rfl⟩, fun r present => ?_⟩
    obtain ⟨p, hp, rfl⟩ := (same r).mp present
    have low := ascending_head_le asc p hp
    simp only [List.headD_cons]
    omega
  maxRowid := by
    have last : offsets.getLastD 0 = offsets.getLast nonempty := by
      rw [List.getLastD_eq_getLast?, List.getLast?_eq_some_getLast nonempty, Option.getD_some]
    refine ⟨(same _).mpr ⟨offsets.getLast nonempty, List.getLast_mem nonempty, by rw [last]⟩,
      fun r present => ?_⟩
    obtain ⟨p, hp, rfl⟩ := (same r).mp present
    have high := ascending_le_getLast asc nonempty p hp
    simp only [last]
    omega

theorem describes_eq {p q : PackedSegment} {rowids others : List Int} (left : Describes p rowids)
    (right : Describes q others) (settled : ∀ r ∈ rowids, 0 ≤ r)
    (same : ∀ r, r ∈ rowids ↔ r ∈ others) : p = q := by
  have settled' : ∀ r ∈ others, 0 ≤ r := fun r present => settled r ((same r).mpr present)
  have members : ∀ x, x ∈ rowids.map Int.toNat ↔ x ∈ others.map Int.toNat := by
    intro x
    simp only [List.mem_map, same]
  have postings : p.postings = q.postings := by
    have encoded := left.postings
    rw [encodePostings_ok settled, sortUnique_congr members, ← encodePostings_ok settled',
      right.postings] at encoded
    exact (Except.ok.inj encoded).symm
  have rowidCount : p.rowidCount = q.rowidCount := by
    rw [left.rowidCount, right.rowidCount, sortUnique_congr same]
  have minRowid : p.minRowid = q.minRowid := by
    have low := left.minRowid.2 _ ((same _).mpr right.minRowid.1)
    have high := right.minRowid.2 _ ((same _).mp left.minRowid.1)
    omega
  have maxRowid : p.maxRowid = q.maxRowid := by
    have low := left.maxRowid.2 _ ((same _).mpr right.maxRowid.1)
    have high := right.maxRowid.2 _ ((same _).mp left.maxRowid.1)
    omega
  cases p
  cases q
  simp only at postings rowidCount minRowid maxRowid
  rw [postings, rowidCount, minRowid, maxRowid]

theorem finalize_spec {s : EncodePostingsState} {rowids : List Int} (sound : Sound s)
    (base_small : s.base < 2 ^ 63) (nonempty : s.offsets ≠ [])
    (holds : s.offsets.Perm (rowids.map fun r => r.toNat - s.base))
    (inside : ∀ r ∈ rowids, (s.base : Int) ≤ r) :
    ∃ packed, finalize s = .ok (some packed) ∧ Describes packed rowids := by
  have not_empty : s.isEmpty = false := by
    cases drained : s.isEmpty with
    | false => rfl
    | true => exact absurd ((isEmpty_iff sound).mp drained) nonempty
  have asc := sortUnique_ascending s.offsets
  have kept : sortUnique s.offsets ≠ [] := fun h => nonempty (sortUnique_eq_nil.mp h)
  have small : ∀ offset ∈ sortUnique s.offsets, offset < 2 ^ segmentShift :=
    fun o ho => sound.small o (mem_sortUnique.mp ho)
  have encoded := encodeSortedOffsets_spec asc kept small base_small
  have rowid_mem : ∀ r, r ∈ rowids ↔ ∃ o ∈ sortUnique s.offsets, (s.base : Int) + o = r := by
    intro r
    simp only [mem_sortUnique, holds.mem_iff, List.mem_map]
    constructor
    · intro present
      have low := inside r present
      exact ⟨r.toNat - s.base, ⟨r, present, rfl⟩, by omega⟩
    · rintro ⟨o, ⟨q, present, rfl⟩, rfl⟩
      have low := inside q present
      have same : (s.base : Int) + (q.toNat - s.base : Nat) = q := by omega
      rwa [same]
  refine ⟨⟨blobOf ((sortUnique s.offsets).map (s.base + ·)), (sortUnique s.offsets).length,
    s.base + (sortUnique s.offsets).headD 0, s.base + (sortUnique s.offsets).getLastD 0⟩, ?_, ?_⟩
  · simp only [finalize, not_empty, Bool.false_eq_true, if_false, sortOffsets,
      mergeRuns_ascendingRuns, encoded, bind, Except.bind, pure, Except.pure]
  · exact described_offsets asc kept rowid_mem

theorem segmentBase_eq (rowid : Nat) : segmentBase rowid = rowid / 2 ^ 20 * 2 ^ 20 := by
  simp only [segmentBase, segmentShift, Nat.shiftRight_eq_div_pow, Nat.shiftLeft_eq]

/-- The state holds exactly these rowids of the segment that starts at base. -/
structure Packs (s : EncodePostingsState) (base : Nat) (rowids : List Int) : Prop where
  sound : Sound s
  holds : s.offsets.Perm (rowids.map fun r => r.toNat - base)
  based : rowids ≠ [] → s.base = base

theorem packs_nil_iff {s : EncodePostingsState} {base : Nat} {rowids : List Int}
    (packs : Packs s base rowids) : s.offsets = [] ↔ rowids = [] := by
  have same := packs.holds.length_eq
  rw [List.length_map] at same
  rw [← List.length_eq_zero_iff, ← List.length_eq_zero_iff, same]

theorem initialized_packs (base : Nat) : Packs initialized base [] :=
  ⟨initialized_sound, List.Perm.refl _, by simp⟩

theorem appendRowid_spec {s : EncodePostingsState} {base : Nat} {rowids : List Int} {rowid : Int}
    (packs : Packs s base rowids) (positive : 0 ≤ rowid) (inside : segmentBase rowid.toNat = base) :
    ∃ t, appendRowid s rowid = .ok t ∧ Packs t base (rowids ++ [rowid]) := by
  have small : rowid.toNat - base < 2 ^ segmentShift := by
    rw [segmentBase_eq] at inside
    simp only [segmentShift]
    omega
  have based : Sound { s with base := base } := ⟨packs.sound.stream, packs.sound.small⟩
  obtain ⟨t, ok, sound, offsets_eq, base_eq⟩ := appendOffset_spec based small
  refine ⟨t, ?_, sound, ?_, fun _ => base_eq⟩
  · have not_negative : ¬ rowid < 0 := by omega
    simp only [appendRowid, inside, if_neg not_negative]
    split
    · exact ok
    · rename_i not_empty
      have held : s.base = base := packs.based fun none_held =>
        not_empty ((isEmpty_iff packs.sound).mpr ((packs_nil_iff packs).mpr none_held))
      have unchanged : { s with base := base } = s := by rw [← held]
      rw [if_neg (by simp [held]), ← unchanged]
      exact ok
  · rw [offsets_eq, List.map_append]
    exact packs.holds.append_right _

/-- Any number of states, fed in any order and combined in any tree. The target
    and the source of a combine may both be used again afterwards. -/
inductive Combination where
  | fresh
  | update (state : Combination) (rowid : Int)
  | combined (mode : CombineMode) (source target : Combination)
  | leftover (mode : CombineMode) (source target : Combination)
  deriving DecidableEq, Repr

def Combination.run : Combination → Except Failure EncodePostingsState
  | .fresh => .ok initialized
  | .update state rowid => do
      let s ← state.run
      appendRowid s rowid
  | .combined mode source target => do
      let s ← source.run
      let t ← target.run
      let (joined, _) ← combine mode s t
      return joined
  | .leftover mode source target => do
      let s ← source.run
      let t ← target.run
      let (_, left) ← combine mode s t
      return left

def Combination.ownsBlocks (c : Combination) : Bool :=
  match c.run with
  | .ok s => s.inBlocks
  | .error _ => false

def Combination.fed : Combination → List Int
  | .fresh => []
  | .update state rowid => state.fed ++ [rowid]
  | .combined _ source target => target.fed ++ source.fed
  | .leftover _ source target => target.fed ++ source.fed

/-- The rowids the state has to answer for. A destructive combine moves the
    rowids of a source that owns blocks to the target. -/
def Combination.rowids : Combination → List Int
  | .fresh => []
  | .update state rowid => state.rowids ++ [rowid]
  | .combined _ source target => target.rowids ++ source.rowids
  | .leftover mode source _ =>
      if mode = .allowDestructive ∧ source.ownsBlocks then [] else source.rowids

theorem combine_packs (mode : CombineMode) {source target : EncodePostingsState} {base : Nat}
    {moved kept : List Int} (source_packs : Packs source base moved)
    (target_packs : Packs target base kept) :
    ∃ t s, combine mode source target = .ok (t, s) ∧ Packs t base (kept ++ moved) ∧
      s = if mode = .allowDestructive ∧ source.inBlocks then initialized else source := by
  have one_segment : source.offsets = [] ∨ target.offsets = [] ∨ source.base = target.base := by
    rw [packs_nil_iff source_packs, packs_nil_iff target_packs]
    by_cases none_moved : moved = []
    · exact Or.inl none_moved
    by_cases none_kept : kept = []
    · exact Or.inr (Or.inl none_kept)
    exact Or.inr (Or.inr ((source_packs.based none_moved).trans (target_packs.based none_kept).symm))
  obtain ⟨t, s, ok, sound, perm, base_eq, left⟩ :=
    combine_spec mode source_packs.sound target_packs.sound one_segment
  refine ⟨t, s, ok, ⟨sound, ?_, fun some_held => ?_⟩, left⟩
  · rw [List.map_append]
    exact perm.trans (target_packs.holds.append source_packs.holds)
  · rw [base_eq]
    split
    · rename_i drained
      have none_moved : moved = [] :=
        (packs_nil_iff source_packs).mp ((isEmpty_iff source_packs.sound).mp drained)
      exact target_packs.based (by simpa [none_moved] using some_held)
    · rename_i filled
      exact source_packs.based fun none_moved => filled
        ((isEmpty_iff source_packs.sound).mpr ((packs_nil_iff source_packs).mpr none_moved))

theorem combination_packs (c : Combination) {base : Nat}
    (settled : ∀ r ∈ c.fed, 0 ≤ r ∧ segmentBase r.toNat = base) :
    ∃ s, c.run = .ok s ∧ Packs s base c.rowids := by
  induction c with
  | fresh => exact ⟨initialized, rfl, initialized_packs base⟩
  | update state rowid ih =>
    obtain ⟨s, ok, packs⟩ := ih fun r hr => settled r (by simp [Combination.fed, hr])
    obtain ⟨positive, inside⟩ := settled rowid (by simp [Combination.fed])
    obtain ⟨t, appended, t_packs⟩ := appendRowid_spec packs positive inside
    refine ⟨t, ?_, t_packs⟩
    simp only [Combination.run, ok, bind, Except.bind]
    exact appended
  | combined mode source target source_ih target_ih =>
    obtain ⟨s, s_ok, s_packs⟩ := source_ih fun r hr => settled r (by simp [Combination.fed, hr])
    obtain ⟨t, t_ok, t_packs⟩ := target_ih fun r hr => settled r (by simp [Combination.fed, hr])
    obtain ⟨u, left, ok, u_packs, _⟩ := combine_packs mode s_packs t_packs
    refine ⟨u, ?_, u_packs⟩
    simp only [Combination.run, s_ok, t_ok, ok, bind, Except.bind, pure, Except.pure]
  | leftover mode source target source_ih target_ih =>
    obtain ⟨s, s_ok, s_packs⟩ := source_ih fun r hr => settled r (by simp [Combination.fed, hr])
    obtain ⟨t, t_ok, t_packs⟩ := target_ih fun r hr => settled r (by simp [Combination.fed, hr])
    obtain ⟨u, left, ok, _, left_eq⟩ := combine_packs mode s_packs t_packs
    refine ⟨left, ?_, ?_⟩
    · simp only [Combination.run, s_ok, t_ok, ok, bind, Except.bind, pure, Except.pure]
    · have owns : source.ownsBlocks = s.inBlocks := by simp [Combination.ownsBlocks, s_ok]
      rw [left_eq, Combination.rowids, owns]
      split
      · exact initialized_packs base
      · exact s_packs

theorem segmentBase_of_segment {rowid segment : Nat} (inside : rowid >>> segmentShift = segment) :
    segmentBase rowid = segment <<< segmentShift := by
  rw [segmentBase, inside]

theorem fed_of_rowids (c : Combination) : ∀ r ∈ c.rowids, r ∈ c.fed := by
  induction c with
  | fresh => simp [Combination.rowids]
  | update state rowid ih =>
    intro r present
    rcases List.mem_append.mp present with old | new
    · simp [Combination.fed, ih r old]
    · simp [Combination.fed, List.mem_singleton.mp new]
  | combined mode source target source_ih target_ih =>
    intro r present
    rcases List.mem_append.mp present with kept | moved
    · simp [Combination.fed, target_ih r kept]
    · simp [Combination.fed, source_ih r moved]
  | leftover mode source target source_ih target_ih =>
    intro r present
    rw [Combination.rowids] at present
    split at present
    · simp at present
    · simp [Combination.fed, source_ih r present]

/-- Whatever its thread states were, a group that some row reached is described. -/
theorem combination_finalized (c : Combination) {segment : Nat}
    (settled : ∀ r ∈ c.fed, 0 ≤ r ∧ r < 2 ^ 63 ∧ r.toNat >>> segmentShift = segment)
    (some_held : c.rowids ≠ []) :
    ∃ s packed, c.run = .ok s ∧ finalize s = .ok (some packed) ∧ Describes packed c.rowids := by
  have based : ∀ r ∈ c.fed, 0 ≤ r ∧ segmentBase r.toNat = segment <<< segmentShift :=
    fun r hr => ⟨(settled r hr).1, segmentBase_of_segment (settled r hr).2.2⟩
  obtain ⟨s, ok, packs⟩ := combination_packs c based
  have base_eq := packs.based some_held
  obtain ⟨r, rest, rowids_eq⟩ := List.exists_cons_of_ne_nil some_held
  have below : ∀ r ∈ c.rowids, 0 ≤ r ∧ segmentBase r.toNat = s.base := by
    intro r hr
    rw [base_eq]
    exact based r (fed_of_rowids c r hr)
  have small : s.base < 2 ^ 63 := by
    have first : r ∈ c.rowids := by simp [rowids_eq]
    have fits := (settled r (fed_of_rowids c r first)).2.1
    have base_le := (below r first).2
    rw [segmentBase_eq] at base_le
    omega
  have holds : s.offsets.Perm (c.rowids.map fun r => r.toNat - s.base) := by
    rw [base_eq]
    exact packs.holds
  have inside : ∀ r ∈ c.rowids, (s.base : Int) ≤ r := by
    intro r hr
    obtain ⟨positive, base_le⟩ := below r hr
    rw [segmentBase_eq] at base_le
    omega
  obtain ⟨packed, finalized, describes⟩ :=
    finalize_spec packs.sound small ((packs_nil_iff packs).not.mpr some_held) holds inside
  exact ⟨s, packed, ok, finalized, describes⟩

theorem pack_segment_exact (c : Combination) {segment : Nat}
    (settled : ∀ r ∈ c.fed, 0 ≤ r ∧ r < 2 ^ 63 ∧ r.toNat >>> segmentShift = segment) :
    ∃ s, c.run = .ok s ∧
      s.offsets.Perm (c.rowids.map fun r => r.toNat - segment <<< segmentShift) ∧
      (c.rowids = [] → finalize s = .ok none) ∧
      (c.rowids ≠ [] → ∃ packed, finalize s = .ok (some packed) ∧ Describes packed c.rowids) ∧
      ∀ target : Combination,
        (∀ r ∈ target.fed, 0 ≤ r ∧ r < 2 ^ 63 ∧ r.toNat >>> segmentShift = segment) →
        (Combination.leftover .preserveInput c target).run = .ok s := by
  have based : ∀ r ∈ c.fed, 0 ≤ r ∧ segmentBase r.toNat = segment <<< segmentShift :=
    fun r hr => ⟨(settled r hr).1, segmentBase_of_segment (settled r hr).2.2⟩
  obtain ⟨s, ok, packs⟩ := combination_packs c based
  refine ⟨s, ok, packs.holds, ?_, ?_, ?_⟩
  · intro none_held
    rw [finalize, if_pos ((isEmpty_iff packs.sound).mpr ((packs_nil_iff packs).mpr none_held))]
  · intro some_held
    obtain ⟨t, packed, same, finalized, describes⟩ := combination_finalized c settled some_held
    obtain rfl : s = t := Except.ok.inj (ok.symm.trans same)
    exact ⟨packed, finalized, describes⟩
  · intro target target_settled
    have target_based : ∀ r ∈ target.fed, 0 ≤ r ∧ segmentBase r.toNat = segment <<< segmentShift :=
      fun r hr => ⟨(target_settled r hr).1, segmentBase_of_segment (target_settled r hr).2.2⟩
    obtain ⟨t, t_ok, t_packs⟩ := combination_packs target target_based
    obtain ⟨u, left, combined, _, left_eq⟩ := combine_packs .preserveInput packs t_packs
    have unchanged : left = s := by simpa using left_eq
    simp only [Combination.run, ok, t_ok, combined, bind, Except.bind, pure, Except.pure, unchanged]

def threadStates : Combination :=
  .combined .allowDestructive (.update (.update .fresh 3145737) 3145731) (.update .fresh 3145737)

theorem thread_states_packed : ∃ s packed, threadStates.run = .ok s ∧
    finalize s = .ok (some packed) ∧ Describes packed [3145737, 3145737, 3145731] := by
  obtain ⟨s, ok, _, _, packs, _⟩ := @pack_segment_exact threadStates 3 (by decide)
  obtain ⟨packed, finalized, describes⟩ := packs (by decide)
  exact ⟨s, packed, ok, finalized, describes⟩

end NgramPackSegment
