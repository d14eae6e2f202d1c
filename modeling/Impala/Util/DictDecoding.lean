import Impala.Util.RleDecoding
import Impala.Lib.MachineInt

/-!
The dictionary decoder of util/dict-encoding.h: `DictDecoder<T>` over the RLE-encoded
dictionary indices of a data page, with `RleBatchDecoder::DecodeLiteralValues` and
`DecodeBufferedLiterals` and `BatchedBitReader::UnpackAndDecodeBatch`, the index lookups it
makes through them.

Three buffers stand between the input and the caller: the literals unpacked into the RLE
decoder's `literal_buffer_`, the values `DecodeNextValue` decodes ahead into
`decoded_values_`, and a repeated run's value there with `num_repeats_` left of it. A call
delivers from the decoder's cache, then from the RLE decoder directly or through the cache.
`Delivers` states what the three together hold, as the indices still to come; every call
keeps it and delivers the next values, whatever mix of calls is made. `SkipValues` passes
the count it has left to the RLE decoder's `int32_t` parameter.
-/

set_option autoImplicit false

namespace Impala

open LittleEndian MachineInt

/-- The dictionary entry at index `i`: `dict[idx]`, which the decoder reads only for an index
below `dict_len`. -/
def lookup {α : Type} [Inhabited α] (dict : List α) (i : Nat) : α := dict.getD i default

namespace BatchedBitReader

variable {α : Type} [Inhabited α]

/-- `UnpackAndDecodeBatch(bit_width, dict, dict_len, num_values, v, stride)`: the indices
unpacked and looked up. When one is not an index of the dictionary it returns `-1` with the
reader where it was; what it wrote before is not kept, as the caller then fails. -/
def unpackAndDecodeBatch (r : BatchedBitReader) (bitWidth : Nat) (dict : List α)
    (numValues : Nat) : Int × List α × BatchedBitReader :=
  let (idxs, r') := r.unpackBatch bitWidth numValues
  if idxs.all (· < dict.length) then (idxs.length, idxs.map (lookup dict), r') else (-1, [], r)

end BatchedBitReader

namespace RleBatchDecoder

variable {α : Type} [Inhabited α]

/-- `DecodeBufferedLiterals(max_to_output, dict, dict_len, out)`: the buffered literals looked
up, as many as asked. At an index outside the dictionary it stops, with the values before it
written, and returns 0 with the buffer where it was. -/
def decodeBufferedLiterals (d : RleBatchDecoder) (maxToOutput : Nat) (dict : List α) :
    Nat × List α × RleBatchDecoder :=
  let numToOutput := min maxToOutput (d.literalBuffer.length - d.literalBufferPos)
  let idxs := (d.literalBuffer.drop d.literalBufferPos).take numToOutput
  if idxs.all (· < dict.length) then
    (numToOutput, idxs.map (lookup dict),
      { d with literalBufferPos := d.literalBufferPos + numToOutput,
               literalCount := d.literalCount - numToOutput })
  else (0, (idxs.takeWhile (· < dict.length)).map (lookup dict), d)

/-- `DecodeLiteralValues(num_literals_to_consume, dict, dict_len, out)`: `GetLiteralValues`
with every index looked up in the dictionary, failing at one outside it. -/
def decodeLiteralValues (d : RleBatchDecoder) (numLiteralsToConsume : Nat) (dict : List α) :
    Bool × List α × RleBatchDecoder :=
  if numLiteralsToConsume = 0 then (false, [], d)
  else
    let (ok, out, numRemaining, d) :=
      if d.haveBufferedLiterals then
        let (numConsumed, out, d) := d.decodeBufferedLiterals numLiteralsToConsume dict
        (numConsumed ≠ 0, out, numLiteralsToConsume - numConsumed, d)
      else (true, [], numLiteralsToConsume, d)
    if !ok then (false, out, d)
    else
      let numToBypass := min d.literalCount (numRemaining / 32 * 32)
      let (ok, out, numRemaining, d) :=
        if numToBypass > 0 then
          let (numRead, values, r) :=
            BatchedBitReader.unpackAndDecodeBatch d.bitReader d.bitWidth dict numToBypass
          if numRead < numToBypass then (false, out ++ values, numRemaining, { d with bitReader := r })
          else (true, out ++ values, numRemaining - numToBypass,
            { d with bitReader := r, literalCount := d.literalCount - numToBypass })
        else (true, out, numRemaining, d)
      if !ok then (false, out, d)
      else if numRemaining > 0 then
        match d.fillLiteralBuffer with
        | (false, d) => (false, out, d)
        | (true, d) =>
          let (numCopied, copied, d) := d.decodeBufferedLiterals numRemaining dict
          (numCopied ≠ 0, out ++ copied, d)
      else (true, out, d)

end RleBatchDecoder

/-! ### Decoding indices that are all in the dictionary -/

namespace BatchedBitReader

variable {α : Type} [Inhabited α]

theorem unpackAndDecodeBatch_of_valid {r : BatchedBitReader} {bitWidth numValues : Nat}
    {dict : List α} (hv : ∀ i ∈ (r.unpackBatch bitWidth numValues).1, i < dict.length) :
    r.unpackAndDecodeBatch bitWidth dict numValues =
      (((r.unpackBatch bitWidth numValues).1.length : Int),
        (r.unpackBatch bitWidth numValues).1.map (lookup dict), (r.unpackBatch bitWidth numValues).2) := by
  have hall : (r.unpackBatch bitWidth numValues).1.all (· < dict.length) = true :=
    List.all_eq_true.2 fun i hi => decide_eq_true (hv i hi)
  simp only [unpackAndDecodeBatch, hall, if_true]

end BatchedBitReader

namespace RleBatchDecoder

variable {α : Type} [Inhabited α] {dict : List α}

theorem decodeBufferedLiterals_of_valid {d : RleBatchDecoder} {m : Nat}
    (hv : ∀ i ∈ (d.outputBufferedLiterals m).1, i < dict.length) :
    d.decodeBufferedLiterals m dict =
      ((d.outputBufferedLiterals m).1.length,
        (d.outputBufferedLiterals m).1.map (lookup dict), (d.outputBufferedLiterals m).2) := by
  have hall : ((d.literalBuffer.drop d.literalBufferPos).take
      (min m (d.literalBuffer.length - d.literalBufferPos))).all (· < dict.length) = true :=
    List.all_eq_true.2 fun i hi => decide_eq_true (hv i hi)
  simp only [decodeBufferedLiterals, hall, if_true, outputBufferedLiterals, List.length_take,
    List.length_drop]
  rw [min_eq_left (min_le_right _ _)]

variable {w : Nat} {d : RleBatchDecoder} {unread : List Nat} {bytes : List UInt8}
  {runs : List RleRun}

theorem InLiteral.decodeTakeBuffered (h : InLiteral w d unread bytes runs) {n : Nat}
    (hn0 : 0 < n) (hv : ∀ i ∈ d.buffered.take n, i < dict.length) :
    ∃ d1, (if d.haveBufferedLiterals then
        let (numConsumed, out, d) := d.decodeBufferedLiterals n dict
        (numConsumed ≠ 0, out, n - numConsumed, d)
      else (true, [], n, d)) =
        (true, (d.buffered.take n).map (lookup dict), n - (d.buffered.take n).length, d1) ∧
      d1.buffered = d.buffered.drop n ∧ d1.bitReader = d.bitReader ∧
      InLiteral w d1 unread bytes runs := by
  cases hhave : d.haveBufferedLiterals with
  | true =>
    obtain ⟨hout, hb, h'⟩ := h.outputBuffered n
    have hbne : d.buffered ≠ [] := by
      simp only [haveBufferedLiterals, decide_eq_true_eq] at hhave
      simp [buffered]
      omega
    rw [if_pos rfl, decodeBufferedLiterals_of_valid (hout ▸ hv), hout]
    refine ⟨_, ?_, hb, rfl, h'⟩
    simp [hbne]
    omega
  | false =>
    have hb := buffered_eq_nil_of_haveBufferedLiterals hhave
    exact ⟨d, by simp [hb], by simp [hb], rfl, h⟩

theorem InLiteral.decodeLiteralValues (h : InLiteral w d unread bytes runs) {n : Nat}
    (hn0 : 0 < n) (hn : n ≤ d.literalCount)
    (hv : ∀ i ∈ (d.buffered ++ unread).take n, i < dict.length) :
    ∃ d' unread', d.decodeLiteralValues n dict =
        (true, ((d.buffered ++ unread).take n).map (lookup dict), d') ∧
      InLiteral w d' unread' bytes runs ∧ d'.buffered ++ unread' = (d.buffered ++ unread).drop n := by
  have hvB : ∀ i ∈ d.buffered.take n, i < dict.length := fun i hi =>
    hv i (by rw [List.take_append]; exact List.mem_append_left _ hi)
  obtain ⟨d1, he1, hb1, -, h1⟩ := h.decodeTakeBuffered hn0 hvB
  unfold RleBatchDecoder.decodeLiteralValues
  rw [if_neg (by omega), he1]
  dsimp only
  by_cases hle : n ≤ d.buffered.length
  · have hout : (d.buffered.take n).length = n := by simp [hle]
    simp only [hout, Nat.sub_self, Nat.zero_div, zero_mul, min_zero, gt_iff_lt,
      lt_self_iff_false, if_false, Bool.not_true, Bool.false_eq_true]
    refine ⟨d1, unread, by rw [List.take_append_of_le_length hle], h1, ?_⟩
    rw [hb1, List.drop_append_of_le_length hle]
  · have hB : d.buffered.take n = d.buffered := List.take_of_length_le (by omega)
    have hb1' : d1.buffered = [] := by rw [hb1]; exact List.drop_eq_nil_of_le (by omega)
    have hlc1 : d1.literalCount = unread.length := by rw [h1.count, hb1', List.length_nil, zero_add]
    simp only [hB]
    set m := (n - d.buffered.length) / 32 * 32 with hm
    set r2 := n - d.buffered.length - m with hr2eq
    obtain ⟨hm8, hmle, hr2, hr2u, htake, hdrop⟩ := h.batchSplit hn (by omega) hm hr2eq
    have hmin : min d1.literalCount m = m := by rw [hlc1]; exact min_eq_right hmle
    simp only [hmin]
    rw [htake] at hv
    have hvm : ∀ i ∈ unread.take m, i < dict.length := fun i hi => hv i (by simp [hi])
    have hvr : ∀ i ∈ (unread.drop m).take r2, i < dict.length := fun i hi => hv i (by simp [hi])
    have hub := h1.unpackBatch hm8 hmle
    have hdec : d1.bitReader.unpackAndDecodeBatch d1.bitWidth dict m =
        ((m : Int), (unread.take m).map (lookup dict), ⟨pack w (unread.drop m) ++ bytes⟩) := by
      rw [BatchedBitReader.unpackAndDecodeBatch_of_valid (by rw [hub]; exact hvm), hub]
      simp [hmle]
    by_cases hm0 : m > 0
    · have h2 := h1.advance hb1' hm8 hmle
      simp only [hm0, if_true, hdec, lt_self_iff_false, if_false, Bool.not_true, Bool.false_eq_true]
      rw [← hr2eq]
      by_cases hr0 : r2 > 0
      · obtain ⟨d3, d4, u4, hf, ho, h4, hp4⟩ := h2.fillThenOutput hb1' hr2 hr2u
        have hdb : d3.decodeBufferedLiterals r2 dict =
            (r2, ((unread.drop m).take r2).map (lookup dict), d4) := by
          rw [decodeBufferedLiterals_of_valid (by rw [ho]; exact hvr), ho, List.length_take,
            min_eq_left hr2u]
        simp only [hr0, if_true, hf, hdb]
        refine ⟨d4, u4, ?_, h4, by rw [hp4, hdrop]⟩
        rw [htake]
        simp
        omega
      · have hr0' : r2 = 0 := by omega
        simp only [hr0, if_false]
        refine ⟨_, _, by rw [htake, hr0', List.take_zero, List.append_nil, List.map_append], h2, ?_⟩
        rw [hdrop, hr0', List.drop_zero]
        exact congrArg (· ++ _) hb1'
    · have hm0' : m = 0 := by omega
      have hr0 : n - d.buffered.length > 0 := by omega
      obtain ⟨d3, d4, u4, hf, ho, h4, hp4⟩ :=
        h1.fillThenOutput (r := n - d.buffered.length) hb1' (by omega)
          (by simp only [hm0', List.drop_zero] at hr2u; omega)
      have hvr' : ∀ i ∈ unread.take (n - d.buffered.length), i < dict.length := by
        simpa [hr2eq, hm0'] using hvr
      have hdb : d3.decodeBufferedLiterals (n - d.buffered.length) dict =
          (n - d.buffered.length, (unread.take (n - d.buffered.length)).map (lookup dict), d4) := by
        rw [decodeBufferedLiterals_of_valid (by rw [ho]; exact hvr'), ho]
        simp only [hm0', List.drop_zero] at hr2u
        simp [hr2eq, hm0'] at hr2u ⊢
        omega
      simp only [hm0, if_false, Bool.not_true, Bool.false_eq_true, hr0, if_true, hf, hdb]
      refine ⟨d4, u4, ?_, h4, ?_⟩
      · rw [htake, hr2eq, hm0']
        simp
        omega
      · rw [hp4, hdrop, hr2eq, hm0']
        simp

variable {vals : List Nat}

theorem Decodes.repeatCount_eq_zero (h : Decodes w d vals) (hl : 0 < d.literalCount) :
    d.repeatCount = 0 := by
  cases h with
  | repeated h => have := h.noLiterals; omega
  | literal h => exact h.noRepeats

theorem nextNumRepeats_of_literal (hr : d.repeatCount = 0) (hl : 0 < d.literalCount) :
    d.nextNumRepeats = (0, d) := by
  simp [nextNumRepeats, hr, Nat.pos_iff_ne_zero.1 hl]

theorem nextNumLiterals_of_literal (hl : 0 < d.literalCount) :
    d.nextNumLiterals = (d.literalCount, d) := by
  simp [nextNumLiterals, hl]

theorem Decodes.decodeLiteralValues (h : Decodes w d vals) {n : Nat} (hn0 : 0 < n)
    (hn : n ≤ d.literalCount) (hv : ∀ i ∈ vals.take n, i < dict.length) :
    ∃ d', d.decodeLiteralValues n dict = (true, (vals.take n).map (lookup dict), d') ∧
      Decodes w d' (vals.drop n) ∧ d'.literalCount = d.literalCount - n := by
  cases h with
  | repeated h => have := h.noLiterals; omega
  | @literal unread bytes runs h =>
    have hlen : n ≤ (d.buffered ++ unread).length := by rw [List.length_append, ← h.count]; exact hn
    have hv' : ∀ i ∈ (d.buffered ++ unread).take n, i < dict.length := by
      rwa [List.take_append_of_le_length hlen] at hv
    obtain ⟨d', u', he, h', hp⟩ := h.decodeLiteralValues hn0 hn hv'
    refine ⟨d', ?_, .of_inLiteral h' ?_, ?_⟩
    · rw [he, List.take_append_of_le_length hlen]
    · rw [hp, List.drop_append_of_le_length hlen]
    · have hc := congrArg List.length hp
      simp only [List.length_append, List.length_drop] at hc
      rw [h'.count, hc, h.count]

end RleBatchDecoder

def dictDecoderBufferSize : Nat := 128

/-- `DictDecoder<T>` once its dictionary is decoded: the dictionary `dict_`, the RLE decoder
of the indices, `num_repeats_`, `num_literal_values_`, `next_literal_idx_`, and what has been
written to `decoded_values_`. -/
structure DictDecoder (α : Type) where
  dict : List α
  dataDecoder : RleBatchDecoder
  numRepeats : Nat
  numLiteralValues : Nat
  nextLiteralIdx : Nat
  decodedValues : List α

namespace DictDecoder

variable {α : Type} [Inhabited α]

def setData (dd : DictDecoder α) (buffer : List UInt8) : Except String (DictDecoder α) :=
  match buffer with
  | [] => .error "Dictionary cannot be 0 bytes"
  | bitWidth :: rest =>
    if bitWidth.toNat > 32 ∨ bitWidth.toNat > 64 then
      .error ("Dictionary has invalid or unsupported bit width: " ++ toString bitWidth.toNat)
    else .ok { dd with
      dataDecoder := RleBatchDecoder.reset rest bitWidth.toNat
      numRepeats := 0
      numLiteralValues := 0
      nextLiteralIdx := 0 }

/-- `DecodeNextValue(value)`: the next run's first value, and for a literal run up to
`DICT_DECODER_BUFFER_SIZE` of its values decoded ahead. -/
def decodeNextValue (dd : DictDecoder α) : Bool × List α × DictDecoder α :=
  let (numRepeats, d) := dd.dataDecoder.nextNumRepeats
  if numRepeats > 0 then
    let (idx, d) := d.getRepeatedValue numRepeats
    if idx ≥ dd.dict.length then (false, [], { dd with dataDecoder := d })
    else
      let v := lookup dd.dict idx
      (true, [v], { dd with
        dataDecoder := d
        decodedValues := v :: dd.decodedValues.drop 1
        numRepeats := numRepeats - 1 })
  else
    let (numLiterals, d) := d.nextNumLiterals
    if numLiterals = 0 then (false, [], { dd with dataDecoder := d })
    else
      let numToDecode := min numLiterals dictDecoderBufferSize
      let (ok, decoded, d) := d.decodeLiteralValues numToDecode dd.dict
      let decodedValues := decoded ++ dd.decodedValues.drop decoded.length
      if !ok then (false, [], { dd with dataDecoder := d, decodedValues := decodedValues })
      else (true, [decodedValues.getD 0 default], { dd with
        dataDecoder := d
        decodedValues := decodedValues
        numLiteralValues := numToDecode
        nextLiteralIdx := 1 })

def getNextValue (dd : DictDecoder α) : Bool × List α × DictDecoder α :=
  if dd.numRepeats > 0 then
    (true, [dd.decodedValues.getD 0 default], { dd with numRepeats := dd.numRepeats - 1 })
  else if dd.nextLiteralIdx < dd.numLiteralValues then
    (true, [dd.decodedValues.getD dd.nextLiteralIdx default],
      { dd with nextLiteralIdx := dd.nextLiteralIdx + 1 })
  else dd.decodeNextValue

def copyLiteralsToOutput (dd : DictDecoder α) (maxToCopy : Nat) : List α × DictDecoder α :=
  let numToCopy := min (dd.numLiteralValues - dd.nextLiteralIdx) maxToCopy
  ((dd.decodedValues.drop dd.nextLiteralIdx).take numToCopy,
    { dd with nextLiteralIdx := dd.nextLiteralIdx + numToCopy })

def getNextValuesLoop (count : Nat) (out : List α) (dd : DictDecoder α) :
    Bool × List α × DictDecoder α :=
  if _hc : count = 0 then (true, out, dd)
  else
    let (numRepeats, d) := dd.dataDecoder.nextNumRepeats
    if _hr : numRepeats > 0 then
      let numRepeatsToConsume := min numRepeats count
      let (idx, d) := d.getRepeatedValue numRepeatsToConsume
      if idx ≥ dd.dict.length then (false, out, { dd with dataDecoder := d })
      else getNextValuesLoop (count - numRepeatsToConsume)
        (out ++ List.replicate numRepeatsToConsume (lookup dd.dict idx)) { dd with dataDecoder := d }
    else
      let (numLiterals, d) := d.nextNumLiterals
      if _hl : numLiterals = 0 then (false, out, { dd with dataDecoder := d })
      else if _hall : count ≥ numLiterals then
        match d.decodeLiteralValues numLiterals dd.dict with
        | (false, vs, d) => (false, out ++ vs, { dd with dataDecoder := d })
        | (true, vs, d) => getNextValuesLoop (count - numLiterals) (out ++ vs) { dd with dataDecoder := d }
      else
        let numToDecode := count / 32 * 32
        let (ok, vs, d) := if numToDecode > 0 then d.decodeLiteralValues numToDecode dd.dict
          else (true, [], d)
        let dd := { dd with dataDecoder := d }
        if !ok then (false, out ++ vs, dd)
        else if count - numToDecode > 0 then
          match dd.decodeNextValue with
          | (false, v, dd) => (false, out ++ vs ++ v, dd)
          | (true, v, dd) =>
            let (copied, dd) := dd.copyLiteralsToOutput (count - numToDecode - 1)
            (true, out ++ vs ++ v ++ copied, dd)
        else (true, out ++ vs, dd)
termination_by count
decreasing_by all_goals omega

def getNextValues (dd : DictDecoder α) (count : Nat) : Bool × List α × DictDecoder α :=
  if dd.numRepeats > 0 then
    let numToCopy := min dd.numRepeats count
    getNextValuesLoop (count - numToCopy) (List.replicate numToCopy (dd.decodedValues.getD 0 default))
      { dd with numRepeats := dd.numRepeats - numToCopy }
  else if dd.nextLiteralIdx < dd.numLiteralValues then
    let (copied, dd) := dd.copyLiteralsToOutput count
    getNextValuesLoop (count - copied.length) copied dd
  else getNextValuesLoop count [] dd

/-- `SkipValues(num_values)`. What is left after the cached values goes to
`RleBatchDecoder::SkipValues`, whose parameter is an `int32_t`: a count that narrows to zero
or below skips nothing there (with no literals buffered; with some, the source moves the
buffer position back, which the model does not follow) and the call fails. -/
def skipValues (dd : DictDecoder α) (numValues : Nat) : Bool × DictDecoder α :=
  let (numRemaining, dd) :=
    if dd.numRepeats > 0 then
      let numToSkip := min numValues dd.numRepeats
      (numValues - numToSkip, { dd with numRepeats := dd.numRepeats - numToSkip })
    else if dd.nextLiteralIdx < dd.numLiteralValues then
      let numToSkip := min (dd.numLiteralValues - dd.nextLiteralIdx) numValues
      (numValues - numToSkip, { dd with nextLiteralIdx := dd.nextLiteralIdx + numToSkip })
    else (numValues, dd)
  if numRemaining > 0 then
    let narrowed := toSigned 32 numRemaining
    if 0 < narrowed then
      let skipped := dd.dataDecoder.skipValues narrowed.toNat
      (skipped.1 == numRemaining, { dd with dataDecoder := skipped.2 })
    else (false, dd)
  else (true, dd)

/-! ### The values still to come -/

/-- The values decoded ahead and not yet returned: what is left of a repeated run, then the
literals of `decoded_values_` from `next_literal_idx_` on. -/
def cached (dd : DictDecoder α) : List α :=
  List.replicate dd.numRepeats (dd.decodedValues.getD 0 default) ++
    (dd.decodedValues.drop dd.nextLiteralIdx).take (dd.numLiteralValues - dd.nextLiteralIdx)

theorem length_cached {dd : DictDecoder α} (hd : dd.numLiteralValues ≤ dd.decodedValues.length) :
    dd.cached.length = dd.numRepeats + (dd.numLiteralValues - dd.nextLiteralIdx) := by
  simp [cached]
  omega

theorem cached_eq_nil (dd : DictDecoder α) (hd : dd.numLiteralValues ≤ dd.decodedValues.length) :
    dd.cached = [] ↔ dd.numRepeats = 0 ∧ dd.numLiteralValues ≤ dd.nextLiteralIdx := by
  rw [← List.length_eq_zero_iff, length_cached hd]
  omega

theorem cached_subRepeats (dd : DictDecoder α) {m : Nat} (hm : m ≤ dd.numRepeats) :
    { dd with numRepeats := dd.numRepeats - m }.cached = dd.cached.drop m := by
  simp only [cached]
  rw [List.drop_append_of_le_length (by simpa using hm), List.drop_replicate]

theorem take_cached_of_repeats (dd : DictDecoder α) {m : Nat} (hm : m ≤ dd.numRepeats) :
    dd.cached.take m = List.replicate m (dd.decodedValues.getD 0 default) := by
  simp only [cached]
  rw [List.take_append_of_le_length (by simpa using hm), List.take_replicate, min_eq_left hm]

theorem cached_advance (dd : DictDecoder α) (hr : dd.numRepeats = 0) (m : Nat) :
    { dd with nextLiteralIdx := dd.nextLiteralIdx + m }.cached = dd.cached.drop m := by
  simp only [cached, hr, List.replicate_zero, List.nil_append, List.drop_take, List.drop_drop]
  rw [Nat.sub_add_eq]

variable {w : Nat} {dict : List α} {dd : DictDecoder α} {idxs : List Nat}

open RleBatchDecoder in
/-- `Delivers w dict dd idxs`: the values `dd` has still to deliver are the entries of `dict`
at `idxs`, every one an index of the dictionary: first those cached, then those the RLE
decoder holds. A repeated value is cached only once the literals are used up. -/
structure Delivers (w : Nat) (dict : List α) (dd : DictDecoder α) (idxs : List Nat) : Prop where
  dict_eq : dd.dict = dict
  valid : ∀ i ∈ idxs, i < dict.length
  repeatsFirst : 0 < dd.numRepeats → dd.numLiteralValues ≤ dd.nextLiteralIdx
  decoded : dd.numLiteralValues ≤ dd.decodedValues.length
  cacheLen : dd.cached.length ≤ idxs.length
  cache : dd.cached = (idxs.take dd.cached.length).map (lookup dict)
  rest : Decodes w dd.dataDecoder (idxs.drop dd.cached.length)

open RleBatchDecoder

theorem Delivers.of_split {pre post : List Nat} (hdict : dd.dict = dict)
    (hv : ∀ i ∈ pre ++ post, i < dict.length)
    (hr : 0 < dd.numRepeats → dd.numLiteralValues ≤ dd.nextLiteralIdx)
    (hd : dd.numLiteralValues ≤ dd.decodedValues.length) (hc : dd.cached = pre.map (lookup dict))
    (hrest : Decodes w dd.dataDecoder post) : Delivers w dict dd (pre ++ post) := by
  have hlen : dd.cached.length = pre.length := by rw [hc, List.length_map]
  refine ⟨hdict, hv, hr, hd, by simp [hlen], ?_, ?_⟩
  · rw [hlen, List.take_left' rfl]
    exact hc
  · rwa [hlen, List.drop_left' rfl]

theorem Delivers.take_cached (h : Delivers w dict dd idxs) {c : Nat} (hc : c ≤ dd.cached.length) :
    dd.cached.take c = (idxs.take c).map (lookup dict) := by
  conv_lhs => rw [h.cache]
  rw [← List.map_take, List.take_take, min_eq_left hc]

theorem Delivers.dropCached (h : Delivers w dict dd idxs) {dd' : DictDecoder α} {c : Nat}
    (hc : c ≤ dd.cached.length) (hcache : dd'.cached = dd.cached.drop c)
    (hdict : dd'.dict = dd.dict) (hdata : dd'.dataDecoder = dd.dataDecoder)
    (hr : 0 < dd'.numRepeats → dd'.numLiteralValues ≤ dd'.nextLiteralIdx)
    (hd : dd'.numLiteralValues ≤ dd'.decodedValues.length) :
    Delivers w dict dd' (idxs.drop c) where
  dict_eq := hdict.trans h.dict_eq
  valid := fun i hi => h.valid i (List.mem_of_mem_drop hi)
  repeatsFirst := hr
  decoded := hd
  cacheLen := by
    rw [hcache, List.length_drop, List.length_drop]
    have := h.cacheLen
    omega
  cache := by
    rw [hcache, List.length_drop]
    conv_lhs => rw [h.cache]
    rw [← List.map_drop, List.drop_take]
  rest := by
    rw [hdata, hcache, List.length_drop, List.drop_drop]
    have := h.rest
    rwa [Nat.add_sub_cancel' hc]

theorem Delivers.withDecoder (h : Delivers w dict dd idxs) (hc : dd.cached = [])
    {d' : RleBatchDecoder} {idxs' : List Nat} (hd : Decodes w d' idxs')
    (hsub : ∀ i ∈ idxs', i ∈ idxs) : Delivers w dict { dd with dataDecoder := d' } idxs' := by
  have hc' : ({ dd with dataDecoder := d' } : DictDecoder α).cached = [] := hc
  exact List.nil_append idxs' ▸ Delivers.of_split h.dict_eq (fun i hi => h.valid i (hsub i (by simpa using hi)))
    h.repeatsFirst h.decoded (by rw [hc', List.map_nil]) hd

theorem Delivers.decodes_of_cached_nil (h : Delivers w dict dd idxs) (hc : dd.cached = []) :
    Decodes w dd.dataDecoder idxs := by
  simpa [hc] using h.rest

theorem delivers_reset (dd : DictDecoder α) {bytes : List UInt8} {runs : List RleRun}
    (hr : dd.numRepeats = 0)
    (hl : dd.numLiteralValues = 0) (hd : dd.dataDecoder = reset bytes w)
    (henc : Encodes w bytes runs) (hv : ∀ i ∈ RleRun.valuesOf runs, i < dd.dict.length) :
    Delivers w dd.dict dd (RleRun.valuesOf runs) :=
  List.nil_append (RleRun.valuesOf runs) ▸ Delivers.of_split rfl hv (by omega) (by omega)
    (by simp [cached, hr, hl]) (hd ▸ reset_decodes henc)

theorem Delivers.getNextValue_cached {i : Nat} (h : Delivers w dict dd (i :: idxs))
    (hne : dd.cached ≠ []) :
    ∃ dd', dd.getNextValue = (true, [lookup dict i], dd') ∧ Delivers w dict dd' idxs := by
  have hlen : 1 ≤ dd.cached.length := List.length_pos_iff.2 hne
  have hhead : dd.cached.take 1 = [lookup dict i] := by rw [h.take_cached hlen]; rfl
  unfold getNextValue
  by_cases hr : dd.numRepeats > 0
  · rw [if_pos hr, ← hhead, take_cached_of_repeats dd hr]
    exact ⟨_, rfl, h.dropCached hlen (cached_subRepeats dd hr) rfl rfl
      (fun _ => h.repeatsFirst hr) h.decoded⟩
  · have hr0 : dd.numRepeats = 0 := by omega
    have hlit : dd.nextLiteralIdx < dd.numLiteralValues := by
      rw [length_cached h.decoded] at hlen
      omega
    have hval : dd.cached.take 1 = [dd.decodedValues.getD dd.nextLiteralIdx default] := by
      have hi : dd.nextLiteralIdx < dd.decodedValues.length := by have := h.decoded; omega
      simp only [cached, hr0, List.replicate_zero, List.nil_append, List.take_take]
      rw [min_eq_left (by omega), List.drop_eq_getElem_cons hi, List.getD_eq_getElem?_getD,
        List.getElem?_eq_getElem hi, Option.getD_some]
      rfl
    rw [if_neg hr, if_pos hlit, ← hhead, hval]
    exact ⟨_, rfl, h.dropCached hlen (cached_advance dd hr0 1) rfl rfl (by simp [hr0]) h.decoded⟩

theorem Delivers.decodeNextValue {i : Nat} (h : Delivers w dict dd (i :: idxs))
    (hc : dd.cached = []) :
    ∃ dd', dd.decodeNextValue = (true, [lookup dict i], dd') ∧ Delivers w dict dd' idxs ∧
      (0 < dd.dataDecoder.literalCount → dd'.numRepeats = 0 ∧
        dd'.cached.length = min dd.dataDecoder.literalCount dictDecoderBufferSize - 1) := by
  have hd := h.decodes_of_cached_nil hc
  obtain ⟨hr0, hlit0⟩ := (cached_eq_nil dd h.decoded).1 hc
  have hvi : i < dict.length := h.valid i List.mem_cons_self
  have hinrun : 0 < dd.dataDecoder.literalCount →
      dd.dataDecoder.nextNumRepeats = (0, dd.dataDecoder) ∧
        dd.dataDecoder.nextNumLiterals = (dd.dataDecoder.literalCount, dd.dataDecoder) :=
    fun hl => ⟨nextNumRepeats_of_literal (hd.repeatCount_eq_zero hl) hl, nextNumLiterals_of_literal hl⟩
  obtain ⟨d1, hrep, h1, -⟩ := hd.nextNumRepeats
  unfold DictDecoder.decodeNextValue
  rw [hrep]
  dsimp only
  by_cases hr : d1.repeatCount > 0
  · obtain ⟨k, hk⟩ : ∃ k, d1.repeatCount = k + 1 := ⟨d1.repeatCount - 1, by omega⟩
    obtain ⟨d2, hget, htake, h2⟩ := h1.getRepeatedValue (le_refl d1.repeatCount)
    rw [hk, List.take_succ_cons, List.replicate_succ, List.cons.injEq] at htake
    obtain ⟨rfl, htake⟩ := htake
    rw [if_pos hr, hget]
    dsimp only
    rw [if_neg (by rw [h.dict_eq]; omega), h.dict_eq, hk, Nat.add_sub_cancel]
    refine ⟨_, rfl, ?_, fun hl => absurd ((hinrun hl).1 ▸ hrep) (by simp; omega)⟩
    rw [← List.take_append_drop k idxs, htake]
    refine Delivers.of_split rfl ?_ (fun _ => hlit0) ?_ ?_ ?_
    · rw [← htake, List.take_append_drop]
      exact fun j hj => h.valid j (List.mem_cons_of_mem _ hj)
    · have := h.decoded
      simp only [List.length_cons, List.length_drop]
      omega
    · simp [cached, Nat.sub_eq_zero_of_le hlit0]
    · simpa [hk] using h2
  · have hr1 : d1.repeatCount = 0 := by omega
    rw [if_neg hr]
    obtain ⟨d2, hlit, h2, -⟩ := h1.nextNumLiterals
    rw [hlit]
    dsimp only
    have hl0 : d2.literalCount ≠ 0 := fun hl0 => List.cons_ne_nil i idxs
      (hd.eq_nil_of_no_run (by rw [hrep]; exact hr1) (by rw [hrep]; simp only [hlit]; exact hl0))
    rw [if_neg hl0]
    have hk0 : 0 < min d2.literalCount dictDecoderBufferSize := by
      unfold dictDecoderBufferSize; omega
    obtain ⟨d3, hdec, h3, -⟩ := h2.decodeLiteralValues hk0 (min_le_left _ _)
      (fun j hj => h.valid j (List.mem_of_mem_take hj))
    rw [h.dict_eq, hdec]
    obtain ⟨k, hk⟩ : ∃ k, min d2.literalCount dictDecoderBufferSize = k + 1 := ⟨_, (Nat.succ_pred_eq_of_pos hk0).symm⟩
    rw [hk, List.take_succ_cons, List.map_cons]
    simp only [Bool.not_true, Bool.false_eq_true, if_false, List.cons_append, List.getD_cons_zero]
    have hkl : k ≤ idxs.length := by
      have := h2.literalCount_le
      simp only [List.length_cons] at this
      omega
    refine ⟨_, rfl, ?_, ?_⟩
    · rw [← List.take_append_drop k idxs]
      refine Delivers.of_split rfl ?_ (fun h0 => absurd hr0 (by simpa using h0.ne')) ?_ ?_ ?_
      · rw [List.take_append_drop]
        exact fun j hj => h.valid j (List.mem_cons_of_mem _ hj)
      · simp only [List.length_cons, List.length_append, List.length_map, List.length_take,
          List.length_drop]
        omega
      · simp [cached, hr0, min_eq_left hkl]
      · simpa [hk] using h3
    · intro hl
      obtain ⟨hrep', hlit'⟩ := hinrun hl
      have hd1 : d1 = dd.dataDecoder := (Prod.ext_iff.1 (hrep'.symm.trans hrep)).2.symm
      have hd2 : d2 = dd.dataDecoder := by
        rw [hd1] at hlit
        exact (Prod.ext_iff.1 (hlit'.symm.trans hlit)).2.symm
      refine ⟨hr0, ?_⟩
      rw [← hd2, hk]
      simp only [cached, hr0, List.replicate_zero, List.nil_append, List.length_take,
        List.length_drop, List.length_append, List.length_map, List.length_cons, min_eq_left hkl]
      omega

theorem Delivers.getNextValue {i : Nat} (h : Delivers w dict dd (i :: idxs)) :
    ∃ dd', dd.getNextValue = (true, [lookup dict i], dd') ∧ Delivers w dict dd' idxs := by
  by_cases hc : dd.cached = []
  · obtain ⟨hr0, hlit0⟩ := (cached_eq_nil dd h.decoded).1 hc
    obtain ⟨dd', he, h', -⟩ := h.decodeNextValue hc
    refine ⟨dd', ?_, h'⟩
    rw [DictDecoder.getNextValue, if_neg (by omega), if_neg (by omega), he]
  · exact h.getNextValue_cached hc

theorem Delivers.copyLiteralsToOutput (h : Delivers w dict dd idxs) (hr : dd.numRepeats = 0)
    (c : Nat) :
    (dd.copyLiteralsToOutput c).1 = (idxs.take (min c dd.cached.length)).map (lookup dict) ∧
      Delivers w dict (dd.copyLiteralsToOutput c).2 (idxs.drop (min c dd.cached.length)) ∧
      (dd.copyLiteralsToOutput c).2.cached = dd.cached.drop (min c dd.cached.length) := by
  have hlen : dd.cached.length = dd.numLiteralValues - dd.nextLiteralIdx := by
    rw [length_cached h.decoded, hr, zero_add]
  have hmin : min (dd.numLiteralValues - dd.nextLiteralIdx) c = min c dd.cached.length := by
    rw [hlen, min_comm]
  simp only [DictDecoder.copyLiteralsToOutput, hmin]
  refine ⟨?_, h.dropCached (min_le_right _ _) (cached_advance dd hr _) rfl rfl (by simp [hr])
    h.decoded, cached_advance dd hr _⟩
  rw [← h.take_cached (min_le_right _ _)]
  set L := dd.cached.length
  simp only [cached, hr, List.replicate_zero, List.nil_append, List.take_take]
  rw [← hlen, min_eq_left (min_le_right _ _)]

theorem take_split {β : Type} (l : List β) {m n : Nat} (h : m ≤ n) :
    l.take n = l.take m ++ (l.drop m).take (n - m) := by
  rw [← List.take_add, Nat.add_sub_cancel' h]

theorem drop_split {β : Type} (l : List β) {m n : Nat} (h : m ≤ n) :
    l.drop n = (l.drop m).drop (n - m) := by
  rw [List.drop_drop, Nat.add_sub_cancel' h]

theorem Delivers.getNextValuesLoop (count : Nat) :
    ∀ {dd : DictDecoder α} {idxs : List Nat} (out : List α), Delivers w dict dd idxs →
      (count = 0 ∨ dd.cached = []) → count ≤ idxs.length →
      ∃ dd', DictDecoder.getNextValuesLoop count out dd =
          (true, out ++ (idxs.take count).map (lookup dict), dd') ∧
        Delivers w dict dd' (idxs.drop count) := by
  induction count using Nat.strong_induction_on with
  | _ count ih =>
  intro dd idxs out h hc hle
  obtain rfl := h.dict_eq
  rw [DictDecoder.getNextValuesLoop]
  by_cases hc0 : count = 0
  · subst hc0
    exact ⟨dd, by simp, by simpa using h⟩
  rw [dif_neg hc0]
  have hcache : dd.cached = [] := hc.resolve_left hc0
  have hd := h.decodes_of_cached_nil hcache
  obtain ⟨i, idxs', rfl⟩ : ∃ i idxs', idxs = i :: idxs' :=
    List.exists_cons_of_length_pos (by omega)
  have hvt : ∀ n, ∀ j ∈ (i :: idxs').take n, j < dd.dict.length :=
    fun n j hj => h.valid j (List.mem_of_mem_take hj)
  obtain ⟨d1, hrep, h1, -⟩ := hd.nextNumRepeats
  simp only [hrep]
  by_cases hr : d1.repeatCount > 0
  · rw [dif_pos hr]
    have hm0 : 0 < min d1.repeatCount count := by omega
    obtain ⟨d2, hget, htake, h2⟩ := h1.getRepeatedValue (min_le_left d1.repeatCount count)
    have hrv : d1.repeatedValue = i := by
      obtain ⟨k, hk⟩ : ∃ k, min d1.repeatCount count = k + 1 := ⟨_, (Nat.succ_pred_eq_of_pos hm0).symm⟩
      rw [hk, List.take_succ_cons, List.replicate_succ, List.cons.injEq] at htake
      exact htake.1.symm
    rw [hget]
    dsimp only
    rw [if_neg (by rw [hrv]; exact not_le.2 (h.valid i List.mem_cons_self))]
    have h2' := h.withDecoder hcache h2 (fun j hj => List.mem_of_mem_drop hj)
    obtain ⟨dd', he, h'⟩ := ih (count - min d1.repeatCount count) (by omega)
      (out ++ List.replicate (min d1.repeatCount count) (lookup dd.dict d1.repeatedValue)) h2'
      (Or.inr hcache) (by simp only [List.length_drop]; omega)
    refine ⟨dd', ?_, ?_⟩
    · rw [he, take_split (i :: idxs') (min_le_right d1.repeatCount count), htake, List.map_append,
        List.map_replicate, List.append_assoc]
    · rwa [drop_split (i :: idxs') (min_le_right d1.repeatCount count)]
  · have hr1 : d1.repeatCount = 0 := by omega
    rw [dif_neg hr]
    obtain ⟨d2, hlit, h2, -⟩ := h1.nextNumLiterals
    simp only [hlit]
    have hl0 : d2.literalCount ≠ 0 := fun hl0 => List.cons_ne_nil i idxs'
      (hd.eq_nil_of_no_run (by rw [hrep]; exact hr1) (by rw [hrep]; simp only [hlit]; exact hl0))
    rw [dif_neg hl0]
    have hlc2 := h2.literalCount_le
    by_cases hall : count ≥ d2.literalCount
    · rw [dif_pos hall]
      obtain ⟨d3, hdec, h3, -⟩ := h2.decodeLiteralValues (Nat.pos_of_ne_zero hl0) le_rfl (hvt _)
      rw [hdec]
      dsimp only
      have h3' := h.withDecoder hcache h3 (fun j hj => List.mem_of_mem_drop hj)
      obtain ⟨dd', he, h'⟩ := ih (count - d2.literalCount) (by omega)
        (out ++ ((i :: idxs').take d2.literalCount).map (lookup dd.dict)) h3' (Or.inr hcache)
        (by simp only [List.length_drop]; omega)
      refine ⟨dd', ?_, ?_⟩
      · rw [he, take_split (i :: idxs') hall, List.map_append, List.append_assoc]
      · rwa [drop_split (i :: idxs') hall]
    · rw [dif_neg hall]
      have hn32 : count / 32 * 32 ≤ count := Nat.div_mul_le_self count 32
      obtain ⟨d3, hdec3, h3, hlc3⟩ : ∃ d3,
          (if count / 32 * 32 > 0 then d2.decodeLiteralValues (count / 32 * 32) dd.dict
            else (true, [], d2)) =
            (true, ((i :: idxs').take (count / 32 * 32)).map (lookup dd.dict), d3) ∧
          Decodes w d3 ((i :: idxs').drop (count / 32 * 32)) ∧
          d3.literalCount = d2.literalCount - count / 32 * 32 := by
        by_cases hpos : count / 32 * 32 > 0
        · rw [if_pos hpos]
          exact h2.decodeLiteralValues hpos (by omega) (hvt _)
        · have h0 : count / 32 * 32 = 0 := by omega
          rw [if_neg hpos, h0]
          exact ⟨d2, by simp, by simpa using h2, by simp⟩
      rw [hdec3]
      simp only [Bool.not_true, Bool.false_eq_true, if_false]
      have h3' := h.withDecoder hcache h3 (fun j hj => List.mem_of_mem_drop hj)
      by_cases hrest : count - count / 32 * 32 > 0
      · rw [if_pos hrest]
        obtain ⟨j, rest, hjr⟩ : ∃ j rest, (i :: idxs').drop (count / 32 * 32) = j :: rest :=
          List.exists_cons_of_length_pos (by simp only [List.length_drop]; omega)
        rw [hjr] at h3'
        obtain ⟨dd4, he4, h4, hlen4⟩ := h3'.decodeNextValue hcache
        rw [he4]
        dsimp only
        obtain ⟨hr4, hc4⟩ := hlen4 (by simp only [hlc3]; omega)
        have hc : count - count / 32 * 32 - 1 ≤ dd4.cached.length := by
          rw [hc4, hlc3]
          unfold dictDecoderBufferSize
          omega
        obtain ⟨hout, h5, -⟩ := h4.copyLiteralsToOutput hr4 (count - count / 32 * 32 - 1)
        rw [min_eq_left hc] at hout h5
        have hrestlen : count - count / 32 * 32 = (count - count / 32 * 32 - 1) + 1 := by omega
        refine ⟨(dd4.copyLiteralsToOutput (count - count / 32 * 32 - 1)).2, ?_, ?_⟩
        · rw [hout, take_split (i :: idxs') hn32, hjr, hrestlen, List.take_succ_cons]
          simp
        · rwa [drop_split (i :: idxs') hn32, hjr, hrestlen, List.drop_succ_cons]
      · rw [if_neg hrest]
        have h32 : count / 32 * 32 = count := by omega
        rw [h32] at h3'
        exact ⟨_, by rw [h32], h3'⟩

theorem Delivers.getNextValues (h : Delivers w dict dd idxs) {count : Nat}
    (hle : count ≤ idxs.length) :
    ∃ dd', dd.getNextValues count = (true, (idxs.take count).map (lookup dict), dd') ∧
      Delivers w dict dd' (idxs.drop count) := by
  unfold DictDecoder.getNextValues
  by_cases hr : dd.numRepeats > 0
  · rw [if_pos hr]
    have hm : min dd.numRepeats count ≤ dd.cached.length := by
      rw [length_cached h.decoded]
      omega
    have h1 := h.dropCached hm (cached_subRepeats dd (min_le_left _ _)) rfl rfl
      (fun _ => h.repeatsFirst hr) h.decoded
    have hrest : count - min dd.numRepeats count = 0 ∨
        ({ dd with numRepeats := dd.numRepeats - min dd.numRepeats count } : DictDecoder α).cached
          = [] := by
      by_cases hc : count ≤ dd.numRepeats
      · exact .inl (by omega)
      · refine .inr ((cached_eq_nil { dd with numRepeats := dd.numRepeats - min dd.numRepeats count }
          h.decoded).2 ⟨?_, h.repeatsFirst hr⟩)
        show dd.numRepeats - min dd.numRepeats count = 0
        omega
    obtain ⟨dd', he, h'⟩ := h1.getNextValuesLoop (count - min dd.numRepeats count)
      (List.replicate (min dd.numRepeats count) (dd.decodedValues.getD 0 default)) hrest
      (by simp only [List.length_drop]; omega)
    refine ⟨dd', ?_, ?_⟩
    · rw [he, ← take_cached_of_repeats dd (min_le_left _ _), h.take_cached hm, ← List.map_append,
        ← take_split idxs (min_le_right _ _)]
    · rwa [← drop_split idxs (min_le_right _ _)] at h'
  · rw [if_neg hr]
    by_cases hlit : dd.nextLiteralIdx < dd.numLiteralValues
    · rw [if_pos hlit]
      obtain ⟨hout, h1, hc1⟩ := h.copyLiteralsToOutput (by omega) count
      generalize dd.copyLiteralsToOutput count = p at hout h1 hc1 ⊢
      obtain ⟨copied, dd1⟩ := p
      dsimp only at hout h1 hc1 ⊢
      have hlen : copied.length = min count dd.cached.length := by
        rw [hout, List.length_map, List.length_take]
        have := h.cacheLen
        omega
      have hrest : count - copied.length = 0 ∨ dd1.cached = [] := by
        rw [hlen, hc1]
        by_cases hc : count ≤ dd.cached.length
        · exact .inl (by omega)
        · exact .inr (List.drop_eq_nil_of_le (by omega))
      obtain ⟨dd', he, h'⟩ := h1.getNextValuesLoop _ copied hrest
        (by rw [hlen, List.length_drop]; omega)
      refine ⟨dd', ?_, ?_⟩
      · rw [he, hlen, hout, ← List.map_append, ← take_split idxs (min_le_left _ _)]
      · rwa [hlen, ← drop_split idxs (min_le_left _ _)] at h'
    · rw [if_neg hlit]
      have hc : dd.cached = [] := (cached_eq_nil dd h.decoded).2 ⟨by omega, by omega⟩
      obtain ⟨dd', he, h'⟩ := h.getNextValuesLoop count [] (.inr hc) hle
      exact ⟨dd', by rw [he, List.nil_append], h'⟩

theorem Delivers.skipCached (h : Delivers w dict dd idxs) (k : Nat) :
    ∃ dd1, (if dd.numRepeats > 0 then
        let numToSkip := min k dd.numRepeats
        (k - numToSkip, { dd with numRepeats := dd.numRepeats - numToSkip })
      else if dd.nextLiteralIdx < dd.numLiteralValues then
        let numToSkip := min (dd.numLiteralValues - dd.nextLiteralIdx) k
        (k - numToSkip, { dd with nextLiteralIdx := dd.nextLiteralIdx + numToSkip })
      else (k, dd)) = (k - min k dd.cached.length, dd1) ∧
      Delivers w dict dd1 (idxs.drop (min k dd.cached.length)) ∧
      (dd.cached.length < k → dd1.cached = []) := by
  have hlen := length_cached h.decoded
  by_cases hr : dd.numRepeats > 0
  · have hL : dd.cached.length = dd.numRepeats := by have := h.repeatsFirst hr; omega
    have hm : min k dd.numRepeats = min k dd.cached.length := by rw [hL]
    rw [if_pos hr]
    dsimp only
    rw [hm]
    refine ⟨_, rfl, h.dropCached (min_le_right _ _) (cached_subRepeats dd (hL ▸ min_le_right _ _))
      rfl rfl (fun _ => h.repeatsFirst hr) h.decoded, fun hk => ?_⟩
    refine (cached_eq_nil { dd with numRepeats := dd.numRepeats - min k dd.cached.length }
      h.decoded).2 ⟨?_, h.repeatsFirst hr⟩
    show dd.numRepeats - min k dd.cached.length = 0
    omega
  · have hr0 : dd.numRepeats = 0 := by omega
    rw [if_neg hr]
    by_cases hlit : dd.nextLiteralIdx < dd.numLiteralValues
    · have hm : min (dd.numLiteralValues - dd.nextLiteralIdx) k = min k dd.cached.length := by
        rw [hlen, hr0, zero_add, min_comm]
      rw [if_pos hlit]
      dsimp only
      rw [hm]
      refine ⟨_, rfl, h.dropCached (min_le_right _ _) (cached_advance dd hr0 _) rfl rfl
        (by simp [hr0]) h.decoded, fun hk => ?_⟩
      rw [cached_advance dd hr0]
      exact List.drop_eq_nil_of_le (by omega)
    · have hc : dd.cached.length = 0 := by omega
      rw [if_neg hlit, hc, Nat.min_zero, Nat.sub_zero, List.drop_zero]
      exact ⟨dd, rfl, h, fun _ => List.eq_nil_of_length_eq_zero hc⟩

theorem Delivers.skipValues (h : Delivers w dict dd idxs) {k : Nat} (hle : k ≤ idxs.length)
    (hk : k ≤ int32Max) (hfit : w * idxs.length + 7 < 2 ^ 32) :
    ∃ dd', dd.skipValues k = (true, dd') ∧ Delivers w dict dd' (idxs.drop k) := by
  obtain ⟨dd1, he1, h1, hc1⟩ := h.skipCached k
  unfold DictDecoder.skipValues
  rw [he1]
  dsimp only
  by_cases hrem : k - min k dd.cached.length > 0
  · rw [if_pos hrem]
    have hc : dd1.cached = [] := hc1 (by omega)
    have hnarrow : toSigned 32 ((k - min k dd.cached.length : Nat) : Int) =
        ((k - min k dd.cached.length : Nat) : Int) :=
      toSigned_of_bounds (w := 31) (by omega) (by unfold int32Max at hk; omega)
    rw [hnarrow, if_pos (by omega), Int.toNat_natCast]
    obtain ⟨d', hs, hd'⟩ := (h1.decodes_of_cached_nil hc).skipValues
      (RleBatchDecoder.fit_drop hfit _) (k - min k dd.cached.length)
    have hfit : k - min k dd.cached.length ≤ (idxs.drop (min k dd.cached.length)).length := by
      rw [List.length_drop]
      omega
    rw [hs, min_eq_left hfit]
    refine ⟨{ dd1 with dataDecoder := d' }, by simp, ?_⟩
    rw [drop_split idxs (min_le_left k dd.cached.length)]
    exact h1.withDecoder hc hd' (fun j hj => List.mem_of_mem_drop hj)
  · rw [if_neg hrem]
    have hm : min k dd.cached.length = k := by omega
    rw [hm] at h1
    exact ⟨dd1, rfl, h1⟩

/-- `SkipValues(k)` fails once the count left after the cache is past `INT32_MAX`, however
many values are left: the RLE decoder gets the count narrowed to `int32_t`, which either skips
nothing or skips fewer than asked. -/
theorem skipValues_int32_narrowing_fails (h : Delivers w dict dd idxs) {k : Nat}
    (hk : dd.cached.length + 2 ^ 31 ≤ k) : (dd.skipValues k).1 = false := by
  obtain ⟨dd1, he1, h1, hc1⟩ := h.skipCached k
  have hm : min k dd.cached.length = dd.cached.length := by omega
  unfold DictDecoder.skipValues
  rw [he1]
  dsimp only
  rw [hm, if_pos (by omega)]
  split_ifs with hpos
  · have hle := RleBatchDecoder.skipValues_le dd1.dataDecoder
      (toSigned 32 ((k - dd.cached.length : Nat) : Int)).toNat
    have hlt : toSigned 32 ((k - dd.cached.length : Nat) : Int) < 2 ^ 31 := toSigned_lt 31 _
    simp only [beq_eq_false_iff_ne, ne_eq]
    omega
  · rfl

theorem length_valuesOf_repeated (n m v : Nat) :
    (RleRun.valuesOf [.repeated n v, .repeated m v]).length = n + m := by
  simp

theorem skipValues_int32_narrowing_fails_two_runs :
    (⟨[7], reset [] 0, 0, 0, 0, []⟩ : DictDecoder Nat).setData
        (0 :: encodeRuns 0 [.repeated (2 ^ 30) 0, .repeated (2 ^ 30) 0]) =
      .ok ⟨[7], reset (encodeRuns 0 [.repeated (2 ^ 30) 0, .repeated (2 ^ 30) 0]) 0, 0, 0, 0, []⟩ ∧
    (RleRun.valuesOf [.repeated (2 ^ 30) 0, .repeated (2 ^ 30) 0]).length = 2 ^ 31 ∧
    ((⟨[7], reset (encodeRuns 0 [.repeated (2 ^ 30) 0, .repeated (2 ^ 30) 0]) 0, 0, 0, 0, []⟩ :
        DictDecoder Nat).skipValues (2 ^ 31)).1 = false := by
  have hlen : (RleRun.valuesOf [.repeated (2 ^ 30) 0, .repeated (2 ^ 30) 0]).length = 2 ^ 31 :=
    (length_valuesOf_repeated _ _ _).trans (by norm_num)
  have hv : ∀ i ∈ RleRun.valuesOf [.repeated (2 ^ 30) 0, .repeated (2 ^ 30) 0], i < [7].length := by
    intro i hi
    simp only [RleRun.valuesOf_cons, RleRun.valuesOf_nil, RleRun.values_repeated, List.mem_append,
      List.mem_replicate, List.not_mem_nil, or_false] at hi
    rcases hi with ⟨-, rfl⟩ | ⟨-, rfl⟩ <;> exact Nat.zero_lt_one
  exact ⟨rfl, hlen, skipValues_int32_narrowing_fails
    (delivers_reset ⟨[7], reset (encodeRuns 0 [.repeated (2 ^ 30) 0, .repeated (2 ^ 30) 0]) 0, 0, 0,
      0, []⟩ rfl rfl rfl (encodes_encodeRuns (by decide)) hv) (by simp [cached])⟩

end DictDecoder

/-! ### Any sequence of calls -/

/-- The calls a reader makes of a `DictDecoder`. -/
inductive DictCall
  | getNextValue
  | getNextValues (count : Nat)
  | skipValues (numValues : Nat)
  deriving DecidableEq, Repr

namespace DictCall

variable {α : Type} [Inhabited α]

def count : DictCall → Nat
  | getNextValue => 1
  | getNextValues count => count
  | skipValues numValues => numValues

def writes : DictCall → Bool
  | skipValues _ => false
  | _ => true

def run (dd : DictDecoder α) : DictCall → Bool × List α × DictDecoder α
  | getNextValue => dd.getNextValue
  | getNextValues count => dd.getNextValues count
  | skipValues numValues => let (ok, dd) := dd.skipValues numValues; (ok, [], dd)

def runAll (dd : DictDecoder α) : List DictCall → List (Bool × List α)
  | [] => []
  | c :: cs => ((run dd c).1, (run dd c).2.1) :: runAll (run dd c).2.2 cs

def Fits : List Nat → List DictCall → Prop
  | _, [] => True
  | idxs, c :: cs =>
    c.count ≤ idxs.length ∧ (c.writes = false → c.count ≤ int32Max) ∧ Fits (idxs.drop c.count) cs

variable {w : Nat} {dict : List α} {dd : DictDecoder α} {idxs : List Nat}

theorem run_spec (h : DictDecoder.Delivers w dict dd idxs) (hfit : w * idxs.length + 7 < 2 ^ 32)
    (c : DictCall) (hc : c.count ≤ idxs.length) (hskip : c.writes = false → c.count ≤ int32Max) :
    (run dd c).1 = true ∧
      (run dd c).2.1 = (if c.writes then (idxs.take c.count).map (lookup dict) else []) ∧
      DictDecoder.Delivers w dict (run dd c).2.2 (idxs.drop c.count) := by
  cases c with
  | getNextValue =>
    obtain ⟨i, idxs', rfl⟩ := List.exists_cons_of_length_pos
      (show 0 < idxs.length by simp only [count] at hc; omega)
    obtain ⟨dd', he, h'⟩ := h.getNextValue
    rw [show run dd getNextValue = (true, [lookup dict i], dd') from he]
    exact ⟨rfl, rfl, h'⟩
  | getNextValues k =>
    obtain ⟨dd', he, h'⟩ := h.getNextValues hc
    rw [show run dd (getNextValues k) = (true, (idxs.take k).map (lookup dict), dd') from he]
    exact ⟨rfl, rfl, h'⟩
  | skipValues k =>
    obtain ⟨dd', he, h'⟩ := h.skipValues hc (hskip rfl) hfit
    have he' : dd.skipValues k = (true, dd') := he
    rw [show run dd (skipValues k) = (true, [], dd') by simp only [run, he']]
    exact ⟨rfl, rfl, h'⟩

end DictCall

end Impala
