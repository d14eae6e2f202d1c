import Impala.Lib.MachineInt

/-!
Hadoop-framed Snappy and LZ4 block decompression (util/decompress.cc,
`SnappyBlockDecompress`, `SnappyBlockDecompressor::ProcessBlock` and
`Lz4BlockDecompressor::ProcessBlock`).

The input is a sequence of frames: a 4-byte big-endian uncompressed length, then chunks
of a 4-byte big-endian compressed length and that many bytes, until the chunks have given
the frame's length (`Frames`). The two decompressors run the same two loops and differ only
in the check of a frame's length, the codec call on a chunk and their error codes: the loops
are written once (`decodeChunks`, `decodeFrames`) over a `BlockCodec`, and each decompressor
is that loop at its own codec. The Snappy and LZ4 calls are parameters that keep their
documented bounds.

Both loops read a 4-byte length whenever `input_len > 0`, and compare `input_len` with
zero only before the next chunk length: an input of one to three bytes is read four bytes
long, and when those four bytes are zero it is accepted as a frame of no value
(`processBlock_reads_past_short_input`). What the loops write stays in the output buffer
(`processBlock_writes_within`).

The input is a function from offsets to bytes, read from offset 0; every read is recorded
as a window `(offset, length)`.
-/

set_option autoImplicit false

namespace Impala.Decompress

open MachineInt

/-- The status codes the two decompressors return. -/
inductive Error
  | snappyDecompressSizeIncorrect
  | snappyCorruption (inputLen : Int)
  | snappyInvalidCompressedLength
  | snappyUncompressedLengthFailed
  | snappyRawUncompressFailed
  | lz4BlockDecompressSizeIncorrect
  | lz4BlockDecompressInvalidInputLength
  | lz4BlockDecompressInvalidCompressedLength
  | lz4DecompressSafeFailed
  deriving DecidableEq, Repr

def getInt (mem : Nat → UInt8) (p : Nat) : Nat :=
  (((mem p).toNat * 256 + (mem (p + 1)).toNat) * 256 + (mem (p + 2)).toNat) * 256 +
    (mem (p + 3)).toNat

def window (mem : Nat → UInt8) (p n : Nat) : List UInt8 := (List.range n).map fun i => mem (p + i)

def toSizeT (x : Int) : Nat := (x % 2 ^ 64).toNat

/-- The loops' state: `input` as an offset, `input_len`, `uncompressed_total_len`, the bytes
written to the output, and the windows of the input read so far. -/
structure Frame where
  input : Nat
  inputLen : Int
  total : Nat
  output : List UInt8
  reads : List (Nat × Nat)

namespace Frame

def start (inputLen : Int) : Frame := ⟨0, inputLen, 0, [], []⟩

@[simp] theorem start_input (inputLen : Int) : (start inputLen).input = 0 := rfl
@[simp] theorem start_inputLen (inputLen : Int) : (start inputLen).inputLen = inputLen := rfl
@[simp] theorem start_total (inputLen : Int) : (start inputLen).total = 0 := rfl

/-- `GetInt<uint32_t>(input)`, then `input += sizeof(uint32_t)` and
`input_len -= sizeof(uint32_t)`. -/
def readLength (s : Frame) : Frame :=
  { s with input := s.input + 4, inputLen := s.inputLen - 4, reads := s.reads ++ [(s.input, 4)] }

def readChunk (s : Frame) (n : Nat) : Frame := { s with reads := s.reads ++ [(s.input, n)] }

/-- After a chunk: `input += compressed_len`, `input_len -= compressed_len`, the chunk's bytes
written, and `uncompressed_total_len += uncompressed_len`. -/
def advance (s : Frame) (n : Nat) (bytes : List UInt8) (uncompressedLen : Nat) : Frame :=
  { s with
    input := s.input + n
    inputLen := s.inputLen - n
    total := s.total + uncompressedLen
    output := s.output ++ bytes }

@[simp] theorem readLength_inputLen (s : Frame) : s.readLength.inputLen = s.inputLen - 4 := rfl
@[simp] theorem readLength_input (s : Frame) : s.readLength.input = s.input + 4 := rfl
@[simp] theorem readLength_total (s : Frame) : s.readLength.total = s.total := rfl
@[simp] theorem readLength_output (s : Frame) : s.readLength.output = s.output := rfl
@[simp] theorem readLength_reads (s : Frame) :
    s.readLength.reads = s.reads ++ [(s.input, 4)] := rfl

@[simp] theorem readChunk_inputLen (s : Frame) (n : Nat) : (s.readChunk n).inputLen = s.inputLen :=
  rfl
@[simp] theorem readChunk_input (s : Frame) (n : Nat) : (s.readChunk n).input = s.input := rfl
@[simp] theorem readChunk_total (s : Frame) (n : Nat) : (s.readChunk n).total = s.total := rfl
@[simp] theorem readChunk_output (s : Frame) (n : Nat) : (s.readChunk n).output = s.output := rfl
@[simp] theorem readChunk_reads (s : Frame) (n : Nat) :
    (s.readChunk n).reads = s.reads ++ [(s.input, n)] := rfl

@[simp] theorem advance_inputLen (s : Frame) (n : Nat) (bytes : List UInt8) (u : Nat) :
    (s.advance n bytes u).inputLen = s.inputLen - n := rfl
@[simp] theorem advance_input (s : Frame) (n : Nat) (bytes : List UInt8) (u : Nat) :
    (s.advance n bytes u).input = s.input + n := rfl
@[simp] theorem advance_total (s : Frame) (n : Nat) (bytes : List UInt8) (u : Nat) :
    (s.advance n bytes u).total = s.total + u := rfl
@[simp] theorem advance_output (s : Frame) (n : Nat) (bytes : List UInt8) (u : Nat) :
    (s.advance n bytes u).output = s.output ++ bytes := rfl
@[simp] theorem advance_reads (s : Frame) (n : Nat) (bytes : List UInt8) (u : Nat) :
    (s.advance n bytes u).reads = s.reads := rfl

end Frame

/-- What the Snappy and the LZ4 loop do differently: the check of `uncompressed_block_len`
against the room left in the output, the error for a negative `input_len` and for a bad
`compressed_len`, and the codec call on one chunk, which given the room left and the chunk
gives the bytes it writes and `uncompressed_len`. -/
structure BlockCodec where
  checkFrame : Int → Nat → Option Error
  negativeInputLen : Int → Error
  invalidCompressedLength : Error
  decompressChunk : Int → List UInt8 → Except Error (List UInt8 × Nat)

section Loops

variable (codec : BlockCodec) (mem : Nat → UInt8) (bufferSize : Int)

/-- The inner loop, `while (uncompressed_block_len > 0)`: the state at its end, and the error
the function returns if there is one. -/
def decodeChunks (blockLen : Nat) (s : Frame) : Frame × Option Error :=
  if blockLen = 0 then (s, none)
  else if s.inputLen < 0 then (s, some (codec.negativeInputLen s.inputLen))
  else
    let compressedLen := getInt mem s.input
    let s1 := s.readLength
    if compressedLen = 0 ∨ compressedLen > toSizeT s1.inputLen then
      (s1, some codec.invalidCompressedLength)
    else
      let s2 := s1.readChunk compressedLen
      match codec.decompressChunk (bufferSize - s2.total) (window mem s2.input compressedLen) with
      | .error e => (s2, some e)
      | .ok (bytes, uncompressedLen) =>
        decodeChunks (subUInt32 blockLen uncompressedLen) (s2.advance compressedLen bytes uncompressedLen)
termination_by (s.inputLen + 1).toNat
decreasing_by simp only [Frame.advance_inputLen, Frame.readChunk_inputLen, Frame.readLength_inputLen]; omega

theorem decodeChunks_inputLen_le (blockLen : Nat) (s : Frame) :
    (decodeChunks codec mem bufferSize blockLen s).1.inputLen ≤ s.inputLen := by
  fun_induction decodeChunks codec mem bufferSize blockLen s with
  | case1 | case2 => exact le_rfl
  | case5 _ s _ _ c s1 _ s2 bytes u _ ih =>
    have hstep : (s2.advance c bytes u).inputLen ≤ s.inputLen := by
      simp only [s2, s1, Frame.advance_inputLen, Frame.readChunk_inputLen,
        Frame.readLength_inputLen]
      omega
    exact ih.trans hstep
  | _ => simp +zetaDelta only [Frame.readChunk_inputLen, Frame.readLength_inputLen]; omega

def decodeFrames (s : Frame) : Frame × Option Error :=
  if _h : 0 < s.inputLen then
    let blockLen := getInt mem s.input
    let s1 := s.readLength
    match codec.checkFrame (bufferSize - s1.total) blockLen with
    | some e => (s1, some e)
    | none =>
      match _hc : decodeChunks codec mem bufferSize blockLen s1 with
      | (s2, some e) => (s2, some e)
      | (s2, none) => decodeFrames s2
  else (s, none)
termination_by s.inputLen.toNat
decreasing_by
  have hle := decodeChunks_inputLen_le codec mem bufferSize blockLen s1
  rw [_hc] at hle
  simp only [Frame.readLength_inputLen, s1] at hle
  omega

theorem decodeChunks_zero (s : Frame) : decodeChunks codec mem bufferSize 0 s = (s, none) := by
  rw [decodeChunks, if_pos rfl]

theorem decodeFrames_of_nonpos {s : Frame} (h : ¬ 0 < s.inputLen) :
    decodeFrames codec mem bufferSize s = (s, none) := by
  rw [decodeFrames, dif_neg h]

theorem decodeFrames_empty_frame {s : Frame} (h : 0 < s.inputLen) (hzero : getInt mem s.input = 0)
    (hcheck : codec.checkFrame (bufferSize - s.total) 0 = none) :
    decodeFrames codec mem bufferSize s = decodeFrames codec mem bufferSize s.readLength := by
  rw [decodeFrames, dif_pos h]
  simp only [Frame.readLength_total, hzero, hcheck]
  split
  next s2 e heq =>
    rw [hzero, decodeChunks_zero] at heq
    simp at heq
  next s2 heq =>
    rw [hzero, decodeChunks_zero, Prod.mk.injEq] at heq
    rw [← heq.1]

end Loops

/-- What a call returns: its status (`none` is `Status::OK()`), `*output_len`, the bytes it
wrote to the output and the windows of the input it read. -/
structure Outcome where
  status : Option Error
  outputLen : Nat
  output : List UInt8
  reads : List (Nat × Nat)

/-- The end of a call: `*output_len` is `uncompressed_total_len` on success and stays `0` on
an error. -/
def Frame.finish : Frame × Option Error → Outcome
  | (s, some e) => ⟨some e, 0, s.output, s.reads⟩
  | (s, none) => ⟨none, s.total, s.output, s.reads⟩

@[simp] theorem Frame.finish_ok (s : Frame) :
    Frame.finish (s, none) = ⟨none, s.total, s.output, s.reads⟩ := rfl

@[simp] theorem Frame.finish_error (s : Frame) (e : Error) :
    Frame.finish (s, some e) = ⟨some e, 0, s.output, s.reads⟩ := rfl

@[simp] theorem Frame.finish_output (r : Frame × Option Error) :
    (Frame.finish r).output = r.1.output := by
  obtain ⟨s, _ | e⟩ := r <;> rfl

/-! ### The two decompressors -/

/-- Snappy's `GetUncompressedLength` and `RawUncompress` on a chunk, with their documented
bound: `RawUncompress` writes as many bytes as `GetUncompressedLength` reads off the chunk. -/
structure SnappyLib where
  getUncompressedLength : List UInt8 → Option Nat
  rawUncompress : List UInt8 → Option (List UInt8)
  rawUncompress_length : ∀ src n bytes, getUncompressedLength src = some n →
    rawUncompress src = some bytes → bytes.length = n

/-- `LZ4_decompress_safe` on a chunk and `dstCapacity`, with its documented bound: it writes
no more than `dstCapacity` bytes, and a negative result is none. -/
structure Lz4Lib where
  decompressSafe : List UInt8 → Int → Option (List UInt8)
  decompressSafe_length : ∀ src cap bytes, decompressSafe src cap = some bytes → bytes.length ≤ cap

def snappyCodec (lib : SnappyLib) (sizeOnly : Bool) : BlockCodec where
  checkFrame remaining blockLen :=
    if !sizeOnly && decide (remaining < blockLen) then some .snappyDecompressSizeIncorrect else none
  negativeInputLen := .snappyCorruption
  invalidCompressedLength := .snappyInvalidCompressedLength
  decompressChunk remaining chunk :=
    match lib.getUncompressedLength chunk with
    | none => .error .snappyUncompressedLengthFailed
    | some uncompressedLen =>
      if uncompressedLen = 0 then .error .snappyUncompressedLengthFailed
      else if sizeOnly then .ok ([], uncompressedLen)
      else if toSizeT remaining < uncompressedLen then .error .snappyDecompressSizeIncorrect
      else
        match lib.rawUncompress chunk with
        | none => .error .snappyRawUncompressFailed
        | some bytes => .ok (bytes, uncompressedLen)

def lz4Codec (lib : Lz4Lib) : BlockCodec where
  checkFrame remaining blockLen :=
    if remaining < blockLen then some .lz4BlockDecompressSizeIncorrect else none
  negativeInputLen _ := .lz4BlockDecompressInvalidInputLength
  invalidCompressedLength := .lz4BlockDecompressInvalidCompressedLength
  decompressChunk remaining chunk :=
    match lib.decompressSafe chunk (toSigned 32 remaining) with
    | none => .error .lz4DecompressSafeFailed
    | some bytes => .ok (bytes, bytes.length)

/-- `SnappyBlockDecompress(input_len, input, size_only, output_len, output)`, with
`*output_len` on entry as `bufferSize`. -/
def snappyBlockDecompress (lib : SnappyLib) (mem : Nat → UInt8) (inputLen : Int) (sizeOnly : Bool)
    (bufferSize : Int) : Outcome :=
  Frame.finish (decodeFrames (snappyCodec lib sizeOnly) mem bufferSize (Frame.start inputLen))

/-! ### Invariants of the loops -/

/-- A property of the loops' state that reading a length, handing a chunk to the codec and
moving past a decompressed chunk each keep. -/
structure BlockCodec.Invariant (codec : BlockCodec) (bufferSize : Int) (P : Frame → Prop) :
    Prop where
  readLength : ∀ s, P s → P s.readLength
  readChunk : ∀ s n, P s → P (s.readChunk n)
  advance : ∀ s n chunk bytes u, P s →
    codec.decompressChunk (bufferSize - s.total) chunk = .ok (bytes, u) → P (s.advance n bytes u)

section Invariant

variable {codec : BlockCodec} (mem : Nat → UInt8) {bufferSize : Int} {P : Frame → Prop}

theorem decodeChunks_invariant (hP : codec.Invariant bufferSize P) (blockLen : Nat) {s : Frame}
    (hs : P s) : P (decodeChunks codec mem bufferSize blockLen s).1 := by
  fun_induction decodeChunks codec mem bufferSize blockLen s with
  | case1 | case2 => exact hs
  | case3 => exact hP.readLength _ hs
  | case4 => exact hP.readChunk _ _ (hP.readLength _ hs)
  | case5 _ _ _ _ _ _ _ _ _ _ hchunk ih =>
    exact ih (hP.advance _ _ _ _ _ (hP.readChunk _ _ (hP.readLength _ hs)) hchunk)

theorem decodeFrames_invariant (hP : codec.Invariant bufferSize P) {s : Frame} (hs : P s) :
    P (decodeFrames codec mem bufferSize s).1 := by
  fun_induction decodeFrames codec mem bufferSize s with
  | case1 => exact hP.readLength _ hs
  | case2 _ _ blockLen s1 _ s2 e hc =>
    have := decodeChunks_invariant mem hP blockLen (s := s1) (hP.readLength _ hs)
    rwa [hc] at this
  | case3 _ _ blockLen s1 _ s2 hc ih =>
    have := decodeChunks_invariant mem hP blockLen (s := s1) (hP.readLength _ hs)
    rw [hc] at this
    exact ih this
  | case4 => exact hs

end Invariant

/-! ### Writes stay in the buffer -/

def BlockCodec.WritesWithin (codec : BlockCodec) : Prop :=
  ∀ remaining chunk bytes u, 0 ≤ remaining → remaining < 2 ^ 63 →
    codec.decompressChunk remaining chunk = .ok (bytes, u) → bytes.length = u ∧ (u : Int) ≤ remaining

def BlockCodec.WritesNothing (codec : BlockCodec) : Prop :=
  ∀ remaining chunk bytes u, codec.decompressChunk remaining chunk = .ok (bytes, u) → bytes = []

def Frame.WithinBuffer (bufferSize : Int) (s : Frame) : Prop :=
  s.output.length = s.total ∧ (s.total : Int) ≤ bufferSize

theorem Frame.withinBuffer_start {bufferSize : Int} (h0 : 0 ≤ bufferSize) (inputLen : Int) :
    (Frame.start inputLen).WithinBuffer bufferSize :=
  ⟨rfl, by simpa using h0⟩

theorem withinBuffer_invariant {codec : BlockCodec} (hcodec : codec.WritesWithin) {bufferSize : Int}
    (h63 : bufferSize < 2 ^ 63) : codec.Invariant bufferSize (Frame.WithinBuffer bufferSize) where
  readLength _ hs := hs
  readChunk _ _ hs := hs
  advance s n chunk bytes u hs hchunk := by
    obtain ⟨hout, htotal⟩ := hs
    obtain ⟨hlen, hu⟩ := hcodec _ _ _ _ (by omega) (by omega) hchunk
    refine ⟨by simp [hout, hlen], ?_⟩
    simp only [Frame.advance_total, Nat.cast_add]
    omega

theorem output_invariant {codec : BlockCodec} (hcodec : codec.WritesNothing) (bufferSize : Int)
    (out : List UInt8) : codec.Invariant bufferSize (fun s => s.output = out) where
  readLength _ hs := hs
  readChunk _ _ hs := hs
  advance s n chunk bytes u hs hchunk := by
    simp [hs, hcodec _ _ _ _ hchunk]

/-- An outcome whose bytes are within a buffer of `bufferSize`, and whose `*output_len` on
success is the number of bytes written. -/
def Outcome.WithinBuffer (bufferSize : Int) (o : Outcome) : Prop :=
  (o.output.length : Int) ≤ bufferSize ∧ (o.status = none → o.outputLen = o.output.length)

theorem Frame.WithinBuffer.finish {bufferSize : Int} {r : Frame × Option Error}
    (h : r.1.WithinBuffer bufferSize) : (Frame.finish r).WithinBuffer bufferSize := by
  obtain ⟨s, e⟩ := r
  obtain ⟨hout, htotal⟩ := h
  cases e with
  | none => exact ⟨by simpa [hout] using htotal, by simp [hout]⟩
  | some e => exact ⟨by simpa [hout] using htotal, by simp⟩

theorem toSigned_32_le_self {x : Int} (h : 0 ≤ x) : toSigned 32 x ≤ x := by
  unfold toSigned Int.bmod
  dsimp only
  split <;> omega

theorem toSizeT_of_bounds {x : Int} (h0 : 0 ≤ x) (h : x < 2 ^ 64) : (toSizeT x : Int) = x := by
  unfold toSizeT
  rw [Int.emod_eq_of_lt h0 h, Int.toNat_of_nonneg h0]

theorem snappyCodec_writesWithin (lib : SnappyLib) : (snappyCodec lib false).WritesWithin := by
  intro remaining chunk bytes u h0 h63 hchunk
  simp only [snappyCodec] at hchunk
  split at hchunk
  · simp at hchunk
  next n hn =>
    simp only [Bool.false_eq_true, if_false] at hchunk
    split_ifs at hchunk with hzero hroom
    split at hchunk
    · simp at hchunk
    next written hwritten =>
      simp only [Except.ok.injEq, Prod.mk.injEq] at hchunk
      obtain ⟨rfl, rfl⟩ := hchunk
      have hsize := toSizeT_of_bounds h0 (by omega)
      exact ⟨lib.rawUncompress_length _ _ _ hn hwritten, by omega⟩

theorem lz4Codec_writesWithin (lib : Lz4Lib) : (lz4Codec lib).WritesWithin := by
  intro remaining chunk bytes u h0 _ hchunk
  simp only [lz4Codec] at hchunk
  split at hchunk
  · simp at hchunk
  next written hwritten =>
    simp only [Except.ok.injEq, Prod.mk.injEq] at hchunk
    obtain ⟨rfl, rfl⟩ := hchunk
    have hcap := lib.decompressSafe_length _ _ _ hwritten
    exact ⟨rfl, hcap.trans (toSigned_32_le_self h0)⟩

theorem snappyCodec_writesNothing (lib : SnappyLib) : (snappyCodec lib true).WritesNothing := by
  intro remaining chunk bytes u hchunk
  simp only [snappyCodec] at hchunk
  split at hchunk
  · simp at hchunk
  · simp only [if_true] at hchunk
    split_ifs at hchunk
    simp only [Except.ok.injEq, Prod.mk.injEq] at hchunk
    exact hchunk.1.symm

theorem snappyBlockDecompress_withinBuffer (lib : SnappyLib) (mem : Nat → UInt8) (inputLen : Int)
    {bufferSize : Int} (h0 : 0 ≤ bufferSize) (h63 : bufferSize < 2 ^ 63) :
    (snappyBlockDecompress lib mem inputLen false bufferSize).WithinBuffer bufferSize :=
  Frame.WithinBuffer.finish <| decodeFrames_invariant mem
    (withinBuffer_invariant (snappyCodec_writesWithin lib) h63) (Frame.withinBuffer_start h0 inputLen)

theorem snappyBlockDecompress_sizing_output (lib : SnappyLib) (mem : Nat → UInt8) (inputLen : Int)
    (bufferSize : Int) : (snappyBlockDecompress lib mem inputLen true bufferSize).output = [] := by
  rw [snappyBlockDecompress, Frame.finish_output]
  exact decodeFrames_invariant mem (output_invariant (snappyCodec_writesNothing lib) bufferSize []) rfl

/-! ### The frame format -/

def bigEndian (n : Nat) : List UInt8 :=
  [(n / 2 ^ 24 % 256).toUInt8, (n / 2 ^ 16 % 256).toUInt8, (n / 2 ^ 8 % 256).toUInt8,
    (n % 256).toUInt8]

@[simp] theorem length_bigEndian (n : Nat) : (bigEndian n).length = 4 := rfl

/-- The chunks of one frame, each a 4-byte compressed length `C > 0` and `C` bytes, whose
decompressed sizes by `size` add up to the second index. -/
inductive Chunks (size : List UInt8 → Option Nat) : List UInt8 → Nat → Prop
  | nil : Chunks size [] 0
  | cons {chunk bytes : List UInt8} {u n : Nat} (hpos : 0 < chunk.length)
      (hlen : chunk.length < 2 ^ 32) (hu : size chunk = some u) (rest : Chunks size bytes n) :
      Chunks size (bigEndian chunk.length ++ chunk ++ bytes) (u + n)

/-- A sequence of frames, each a 4-byte uncompressed length `U` and chunks whose sizes add up
to `U`; the second index is the sum of the `U`. -/
inductive Frames (size : List UInt8 → Option Nat) : List UInt8 → Nat → Prop
  | nil : Frames size [] 0
  | cons {chunks rest : List UInt8} {u total : Nat} (hu : u < 2 ^ 32)
      (hchunks : Chunks size chunks u) (hrest : Frames size rest total) :
      Frames size (bigEndian u ++ chunks ++ rest) (u + total)

theorem Frames.eq_nil_or_four_le {size : List UInt8 → Option Nat} {bytes : List UInt8} {total : Nat}
    (h : Frames size bytes total) : bytes = [] ∨ 4 ≤ bytes.length := by
  cases h with
  | nil => exact Or.inl rfl
  | cons => right; simp

@[simp] theorem length_window (mem : Nat → UInt8) (p n : Nat) : (window mem p n).length = n := by
  simp [window]

/-! ### Short inputs -/

theorem decodeFrames_short_input {codec : BlockCodec} {mem : Nat → UInt8} {bufferSize inputLen : Int}
    (hpos : 0 < inputLen) (hshort : inputLen < 4) (hzero : getInt mem 0 = 0)
    (hcheck : codec.checkFrame bufferSize 0 = none) :
    decodeFrames codec mem bufferSize (Frame.start inputLen) =
      ((Frame.start inputLen).readLength, none) := by
  have hcheck' : codec.checkFrame (bufferSize - (Frame.start inputLen).total) 0 = none := by
    simpa using hcheck
  rw [decodeFrames_empty_frame codec mem bufferSize (by simpa using hpos) (by simpa using hzero) hcheck']
  exact decodeFrames_of_nonpos codec mem bufferSize (by simp; omega)

theorem snappyCodec_checkFrame_zero (lib : SnappyLib) (sizeOnly : Bool) {remaining : Int}
    (h : 0 ≤ remaining) : (snappyCodec lib sizeOnly).checkFrame remaining 0 = none := by
  simp only [snappyCodec, Nat.cast_zero, Bool.and_eq_true, Bool.not_eq_true', decide_eq_true_eq]
  rw [if_neg (by omega)]

theorem lz4Codec_checkFrame_zero (lib : Lz4Lib) {remaining : Int} (h : 0 ≤ remaining) :
    (lz4Codec lib).checkFrame remaining 0 = none := by
  simp only [lz4Codec, Nat.cast_zero]
  rw [if_neg (by omega)]

theorem snappyBlockDecompress_short_input (lib : SnappyLib) {mem : Nat → UInt8} (sizeOnly : Bool)
    {inputLen bufferSize : Int} (hpos : 0 < inputLen) (hshort : inputLen < 4)
    (hzero : getInt mem 0 = 0) (hbuffer : 0 ≤ bufferSize) :
    snappyBlockDecompress lib mem inputLen sizeOnly bufferSize = ⟨none, 0, [], [(0, 4)]⟩ := by
  rw [snappyBlockDecompress,
    decodeFrames_short_input hpos hshort hzero (snappyCodec_checkFrame_zero lib sizeOnly hbuffer)]
  rfl

end Impala.Decompress

namespace Impala.SnappyBlockDecompressor

open Decompress

/-- `SnappyBlockDecompressor::ProcessBlock`. Without a preallocated output a first pass, which
writes nothing, gives the size of the buffer the second pass writes into; both read. -/
def processBlock (lib : SnappyLib) (mem : Nat → UInt8) (outputPreallocated : Bool)
    (inputLen outputLen : Int) : Outcome :=
  if outputPreallocated then snappyBlockDecompress lib mem inputLen false outputLen
  else
    let sizing := snappyBlockDecompress lib mem inputLen true outputLen
    match sizing.status with
    | some _ => sizing
    | none =>
      let r := snappyBlockDecompress lib mem inputLen false sizing.outputLen
      { r with reads := sizing.reads ++ r.reads }

end Impala.SnappyBlockDecompressor

namespace Impala.Lz4BlockDecompressor

open Decompress

def processBlock (lib : Lz4Lib) (mem : Nat → UInt8) (inputLen outputLen : Int) : Outcome :=
  if outputLen = 0 then ⟨none, 0, [], []⟩
  else Frame.finish (decodeFrames (lz4Codec lib) mem outputLen (Frame.start inputLen))

end Impala.Lz4BlockDecompressor

namespace Impala.Decompress

theorem processBlock_writes_within (snappy : SnappyLib) (lz4 : Lz4Lib) (mem : Nat → UInt8)
    (inputLen : Int) {outputLen : Int} (h0 : 0 ≤ outputLen) (h63 : outputLen < 2 ^ 63) :
    (SnappyBlockDecompressor.processBlock snappy mem true inputLen outputLen).WithinBuffer outputLen ∧
      ((snappyBlockDecompress snappy mem inputLen true outputLen).outputLen < 2 ^ 63 →
        (SnappyBlockDecompressor.processBlock snappy mem false inputLen outputLen).WithinBuffer
          (snappyBlockDecompress snappy mem inputLen true outputLen).outputLen) ∧
      (Lz4BlockDecompressor.processBlock lz4 mem inputLen outputLen).WithinBuffer outputLen := by
  refine ⟨snappyBlockDecompress_withinBuffer snappy mem inputLen h0 h63, fun hsize => ?_, ?_⟩
  · simp only [SnappyBlockDecompressor.processBlock, Bool.false_eq_true, if_false]
    split
    next e he =>
      refine ⟨by simp [snappyBlockDecompress_sizing_output], fun h => ?_⟩
      rw [he] at h
      cases h
    next he =>
      exact snappyBlockDecompress_withinBuffer snappy mem inputLen (Int.natCast_nonneg _) (by exact_mod_cast hsize)
  · rw [Lz4BlockDecompressor.processBlock]
    split
    · exact ⟨by simpa using h0, fun _ => rfl⟩
    · exact Frame.WithinBuffer.finish <| decodeFrames_invariant mem
        (withinBuffer_invariant (lz4Codec_writesWithin lz4) h63) (Frame.withinBuffer_start h0 inputLen)

/-- An input of one to three bytes is no sequence of frames; yet when the four bytes from its
start are zero, both decompressors read all four and return OK with no output. -/
theorem processBlock_reads_past_short_input (snappy : SnappyLib) (lz4 : Lz4Lib) (mem : Nat → UInt8)
    (outputPreallocated : Bool) {inputLen outputLen : Int} (hpos : 0 < inputLen)
    (hshort : inputLen < 4) (hzero : getInt mem 0 = 0) (hout : 0 < outputLen) :
    let snappyOut := SnappyBlockDecompressor.processBlock snappy mem outputPreallocated inputLen outputLen
    let lz4Out := Lz4BlockDecompressor.processBlock lz4 mem inputLen outputLen
    (∀ size total, ¬ Frames size (window mem 0 inputLen.toNat) total) ∧
      snappyOut.status = none ∧ snappyOut.outputLen = 0 ∧ (0, 4) ∈ snappyOut.reads ∧
      lz4Out.status = none ∧ lz4Out.outputLen = 0 ∧ (0, 4) ∈ lz4Out.reads := by
  intro snappyOut lz4Out
  have hframes : ∀ size total, ¬ Frames size (window mem 0 inputLen.toNat) total := by
    intro size total h
    rcases h.eq_nil_or_four_le with hnil | hfour
    · have := congrArg List.length hnil
      simp at this
      omega
    · simp at hfour
      omega
  have hsnappy : snappyOut.status = none ∧ snappyOut.outputLen = 0 ∧ (0, 4) ∈ snappyOut.reads := by
    cases outputPreallocated <;>
      simp [snappyOut, SnappyBlockDecompressor.processBlock,
        snappyBlockDecompress_short_input snappy _ hpos hshort hzero (le_refl 0),
        snappyBlockDecompress_short_input snappy _ hpos hshort hzero hout.le]
  have hlz4 : Lz4BlockDecompressor.processBlock lz4 mem inputLen outputLen = ⟨none, 0, [], [(0, 4)]⟩ := by
    rw [Lz4BlockDecompressor.processBlock, if_neg hout.ne',
      decodeFrames_short_input hpos hshort hzero (lz4Codec_checkFrame_zero lz4 hout.le)]
    rfl
  simp only [lz4Out, hlz4]
  exact ⟨hframes, hsnappy.1, hsnappy.2.1, hsnappy.2.2, trivial, trivial, by simp⟩

theorem processBlock_reads_past_short_input_one :
    let snappy : SnappyLib := ⟨fun _ => none, fun _ => none, fun _ _ _ h _ => by simp at h⟩
    let lz4 : Lz4Lib := ⟨fun _ _ => none, fun _ _ _ h => by simp at h⟩
    let snappyOut := SnappyBlockDecompressor.processBlock snappy (fun _ => 0) true 1 1
    let lz4Out := Lz4BlockDecompressor.processBlock lz4 (fun _ => 0) 1 1
    (∀ size total, ¬ Frames size (window (fun _ => 0) 0 (1 : Int).toNat) total) ∧
      snappyOut.status = none ∧ snappyOut.outputLen = 0 ∧ (0, 4) ∈ snappyOut.reads ∧
      lz4Out.status = none ∧ lz4Out.outputLen = 0 ∧ (0, 4) ∈ lz4Out.reads :=
  processBlock_reads_past_short_input _ _ _ true (by decide) (by decide) (by decide) (by decide)

end Impala.Decompress
