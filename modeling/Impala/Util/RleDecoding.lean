import Impala.Util.RleEncoding

/-!
The RLE / bit-packing hybrid decoder (util/rle-encoding.h, `RleBatchDecoder<uint64_t>`).

The decoder reads one run header at a time (`NextCounts`). A repeated run is a count and a
value; a literal run is a count of values still in the input, which are read straight into
the caller's array when a whole batch of 32 is wanted, and otherwise through a buffer of 32.

`Decodes w d runs` relates a decoder to the runs it has left to deliver: between runs, the
reader is at their encoding; inside a repeated run, the count left is the decoder's; inside
a literal run, the values left are those buffered and a multiple of eight still packed in
the input. Every call keeps the relation and delivers the next values of the runs, which
is `run_slices`: for runs that are well formed, whatever the calls, each returns the next
slice of the values the runs stand for.
-/

set_option autoImplicit false

namespace Impala

open LittleEndian

/-- `RleBatchDecoder<uint64_t>`: the reader, `bit_width_`, `repeat_count_`,
`literal_count_`, `repeated_value_`, and the buffered literals
`literal_buffer_[0, num_buffered_literals_)` with `literal_buffer_pos_`. -/
structure RleBatchDecoder where
  bitReader : BatchedBitReader
  bitWidth : Nat
  repeatCount : Nat
  literalCount : Nat
  repeatedValue : Nat
  literalBuffer : List Nat
  literalBufferPos : Nat

namespace RleBatchDecoder

def literalBufferLen : Nat := 32

/-- `Reset(buffer, buffer_len, bit_width)`. `repeated_value_` is not read before a repeated
run sets it. -/
def reset (buffer : List UInt8) (bitWidth : Nat) : RleBatchDecoder :=
  ⟨⟨buffer⟩, bitWidth, 0, 0, 0, [], 0⟩

/-- `NextCounts()`: the next run header, or nothing when it cannot be read, when a literal
run would hold more than `INT32_MAX` values, or when a repeated run is empty or has no value
bytes. -/
def nextCounts (d : RleBatchDecoder) : RleBatchDecoder :=
  match d.bitReader.getUleb128 32 with
  | none => d
  | some (indicatorValue, r) =>
    let d := { d with bitReader := r }
    let runLen := indicatorValue / 2
    if indicatorValue % 2 = 1 then
      if runLen * 8 > int32Max then d else { d with literalCount := runLen * 8 }
    else if runLen = 0 then d
    else
      match d.bitReader.getBytes ((d.bitWidth + 7) / 8) with
      | none => d
      | some (value, r) => { d with bitReader := r, repeatedValue := value, repeatCount := runLen }

def nextNumRepeats (d : RleBatchDecoder) : Nat × RleBatchDecoder :=
  if d.repeatCount > 0 then (d.repeatCount, d)
  else
    let d := if d.literalCount = 0 then d.nextCounts else d
    (d.repeatCount, d)

def getRepeatedValue (d : RleBatchDecoder) (numRepeatsToConsume : Nat) : Nat × RleBatchDecoder :=
  (d.repeatedValue, { d with repeatCount := d.repeatCount - numRepeatsToConsume })

def nextNumLiterals (d : RleBatchDecoder) : Nat × RleBatchDecoder :=
  if d.literalCount > 0 then (d.literalCount, d)
  else
    let d := if d.repeatCount = 0 then d.nextCounts else d
    (d.literalCount, d)

def haveBufferedLiterals (d : RleBatchDecoder) : Bool := d.literalBufferPos < d.literalBuffer.length

def fillLiteralBuffer (d : RleBatchDecoder) : Bool × RleBatchDecoder :=
  let numToBuffer := min literalBufferLen d.literalCount
  let (values, r) := d.bitReader.unpackBatch d.bitWidth numToBuffer
  let d := { d with bitReader := r, literalBuffer := values }
  if values.length < numToBuffer then (false, d) else (true, { d with literalBufferPos := 0 })

def outputBufferedLiterals (d : RleBatchDecoder) (maxToOutput : Nat) :
    List Nat × RleBatchDecoder :=
  let numToOutput := min maxToOutput (d.literalBuffer.length - d.literalBufferPos)
  ((d.literalBuffer.drop d.literalBufferPos).take numToOutput,
    { d with literalBufferPos := d.literalBufferPos + numToOutput,
             literalCount := d.literalCount - numToOutput })

def skipBufferedLiterals (d : RleBatchDecoder) (maxToSkip : Nat) : Nat × RleBatchDecoder :=
  let numToSkip := min maxToSkip (d.literalBuffer.length - d.literalBufferPos)
  (numToSkip, { d with literalBufferPos := d.literalBufferPos + numToSkip,
                       literalCount := d.literalCount - numToSkip })

/-- `GetLiteralValues(num_literals_to_consume, values)`: the buffered literals first, then
whole batches of 32 read directly, then the rest through the buffer. -/
def getLiteralValues (d : RleBatchDecoder) (numLiteralsToConsume : Nat) :
    Bool × List Nat × RleBatchDecoder :=
  let (out, d) := if d.haveBufferedLiterals then d.outputBufferedLiterals numLiteralsToConsume
    else ([], d)
  let numToBypass := min d.literalCount ((numLiteralsToConsume - out.length) / 32 * 32)
  let (ok, out, d) :=
    if numToBypass > 0 then
      let (values, r) := d.bitReader.unpackBatch d.bitWidth numToBypass
      if values.length < numToBypass then (false, out ++ values, { d with bitReader := r })
      else (true, out ++ values,
        { d with bitReader := r, literalCount := d.literalCount - numToBypass })
    else (true, out, d)
  if !ok then (false, out, d)
  else if numLiteralsToConsume - out.length > 0 then
    match d.fillLiteralBuffer with
    | (false, d) => (false, out, d)
    | (true, d) =>
      let (copied, d) := d.outputBufferedLiterals (numLiteralsToConsume - out.length)
      (true, out ++ copied, d)
  else (true, out, d)

/-- `SkipLiteralValues(num_literals_to_skip)`, called with no buffered literals. The count
drops by the batches skipped even when `SkipBatch` fails: the source only `DCHECK`s it. -/
def skipLiteralValues (d : RleBatchDecoder) (numLiteralsToSkip : Nat) :
    Bool × RleBatchDecoder :=
  let numToSkip := min d.literalCount (numLiteralsToSkip / 32 * 32)
  let d := if numToSkip > 0 then
      { d with bitReader := (d.bitReader.skipBatch d.bitWidth numToSkip).getD d.bitReader,
               literalCount := d.literalCount - numToSkip }
    else d
  let numRemaining := numLiteralsToSkip - numToSkip
  if numRemaining > 0 then
    match d.fillLiteralBuffer with
    | (false, d) => (false, d)
    | (true, d) =>
      let (skipped, d) := d.skipBufferedLiterals numRemaining
      (skipped = numRemaining, d)
  else (true, d)

def getSingleValue (d : RleBatchDecoder) : Option Nat × RleBatchDecoder :=
  let (numRepeats, d) := d.nextNumRepeats
  if numRepeats > 0 then
    let (v, d) := d.getRepeatedValue 1
    (some v, d)
  else
    let (numLiterals, d) := d.nextNumLiterals
    if numLiterals > 0 then
      let (ok, values, d) := d.getLiteralValues 1
      (if ok then values.head? else none, d)
    else (none, d)

/-- The loop of `GetValues(num_values_to_consume, values)`, from `num_consumed` values
already in `values`. -/
def getValuesFrom (numValuesToConsume numConsumed : Nat) (values : List Nat)
    (d : RleBatchDecoder) : Nat × List Nat × RleBatchDecoder :=
  if numConsumed < numValuesToConsume then
    let (numRepeats, d) := d.nextNumRepeats
    if _hr : numRepeats > 0 then
      let numRepeatsToSet := min numRepeats (numValuesToConsume - numConsumed)
      let (v, d) := d.getRepeatedValue numRepeatsToSet
      getValuesFrom numValuesToConsume (numConsumed + numRepeatsToSet)
        (values ++ List.replicate numRepeatsToSet v) d
    else
      let (numLiterals, d) := d.nextNumLiterals
      if _hl : numLiterals = 0 then (numConsumed, values, d)
      else
        let numLiteralsToSet := min numLiterals (numValuesToConsume - numConsumed)
        match d.getLiteralValues numLiteralsToSet with
        | (false, out, d) => (0, values ++ out, d)
        | (true, out, d) =>
          getValuesFrom numValuesToConsume (numConsumed + numLiteralsToSet) (values ++ out) d
  else (numConsumed, values, d)
termination_by numValuesToConsume - numConsumed

def getValues (d : RleBatchDecoder) (numValuesToConsume : Nat) : Nat × List Nat × RleBatchDecoder :=
  getValuesFrom numValuesToConsume 0 [] d

def skipValuesFrom (numValues numSkipped : Nat) (d : RleBatchDecoder) : Nat × RleBatchDecoder :=
  if numSkipped < numValues then
    let (numRepeats, d) := d.nextNumRepeats
    if _hr : numRepeats > 0 then
      let numRepeatsToConsume := min numRepeats (numValues - numSkipped)
      skipValuesFrom numValues (numSkipped + numRepeatsToConsume)
        { d with repeatCount := d.repeatCount - numRepeatsToConsume }
    else
      let (numLiterals, d) := d.nextNumLiterals
      if _hl : numLiterals = 0 then (numSkipped, d)
      else
        let numLiteralsToSkip := min numLiterals (numValues - numSkipped)
        match d.skipLiteralValues numLiteralsToSkip with
        | (false, d) => (0, d)
        | (true, d) => skipValuesFrom numValues (numSkipped + numLiteralsToSkip) d
  else (numSkipped, d)
termination_by numValues - numSkipped

def skipValues (d : RleBatchDecoder) (numValues : Nat) : Nat × RleBatchDecoder :=
  let (numSkipped, d) := if d.haveBufferedLiterals then d.skipBufferedLiterals numValues
    else (0, d)
  skipValuesFrom numValues numSkipped d

end RleBatchDecoder

/-! ### Well-formed input -/

namespace RleRun

/-- What the decoder accepts of a run: a repeated run of one to `INT32_MAX` values whose
value fits its bytes, and a literal run of at least one group and at most `INT32_MAX`
values, each of `bitWidth` bits. -/
def WellFormed (bitWidth : Nat) : RleRun → Prop
  | repeated count value => 0 < count ∧ count ≤ int32Max ∧ value < 256 ^ ((bitWidth + 7) / 8)
  | literal values => 0 < values.length ∧ 8 ∣ values.length ∧ values.length ≤ int32Max ∧
      ∀ v ∈ values, v < 2 ^ bitWidth

instance (bitWidth : Nat) : DecidablePred (WellFormed bitWidth)
  | repeated count value =>
    inferInstanceAs (Decidable (0 < count ∧ count ≤ int32Max ∧ value < 256 ^ ((bitWidth + 7) / 8)))
  | literal values =>
    inferInstanceAs (Decidable (0 < values.length ∧ 8 ∣ values.length ∧ values.length ≤ int32Max ∧
      ∀ v ∈ values, v < 2 ^ bitWidth))

def valuesOf (runs : List RleRun) : List Nat := runs.flatMap values

@[simp] theorem valuesOf_nil : valuesOf [] = [] := rfl

@[simp] theorem valuesOf_cons (r : RleRun) (runs : List RleRun) :
    valuesOf (r :: runs) = r.values ++ valuesOf runs := rfl

end RleRun

open RleRun

def IsHeader (hdr : List UInt8) (x : Nat) : Prop :=
  ∀ more, BatchedBitReader.getUleb128 ⟨hdr ++ more⟩ 32 = some (x, ⟨more⟩)

/-- `Encodes w bytes runs`: the bytes are the runs, each a header (any ULEB-128 spelling of
its indicator) and its value bytes. -/
inductive Encodes (w : Nat) : List UInt8 → List RleRun → Prop
  | nil : Encodes w [] []
  | repeated {hdr bytes : List UInt8} {count value : Nat} {runs : List RleRun} :
      IsHeader hdr (count * 2) → (repeated count value).WellFormed w → Encodes w bytes runs →
      Encodes w (hdr ++ toBytes value ((w + 7) / 8) ++ bytes) (repeated count value :: runs)
  | literal {hdr bytes : List UInt8} {values : List Nat} {runs : List RleRun} :
      IsHeader hdr (values.length / 8 * 2 + 1) → (literal values).WellFormed w →
      Encodes w bytes runs → Encodes w (hdr ++ pack w values ++ bytes) (literal values :: runs)

theorem isHeader_uleb128 {x : Nat} (hx : x < 2 ^ 32) : IsHeader (uleb128 x) x :=
  BatchedBitReader.getUleb128_uleb128 hx
    (length_uleb128_le (by decide) (by simp only [BatchedBitReader.maxVlqByteLen]; omega))

theorem encodes_encodeRuns {w : Nat} {runs : List RleRun} (h : ∀ r ∈ runs, r.WellFormed w) :
    Encodes w (encodeRuns w runs) runs := by
  induction runs with
  | nil => exact .nil
  | cons r runs ih =>
    have hr := h r List.mem_cons_self
    have hrest := ih (fun r' hr' => h r' (List.mem_cons_of_mem r hr'))
    cases r with
    | repeated count value =>
      have hx : count * 2 < 2 ^ 32 := by have := hr.2.1; unfold int32Max at this; omega
      simpa [encode] using Encodes.repeated (isHeader_uleb128 hx) hr hrest
    | literal values =>
      have hx : values.length / 8 * 2 + 1 < 2 ^ 32 := by
        have := hr.2.2.1; unfold int32Max at this; omega
      simpa [encode] using Encodes.literal (isHeader_uleb128 hx) hr hrest

/-! ### Where the decoder is in the runs -/

namespace RleBatchDecoder

/-- The buffered literals not yet output, `literal_buffer_[literal_buffer_pos_,
num_buffered_literals_)`. -/
def buffered (d : RleBatchDecoder) : List Nat := d.literalBuffer.drop d.literalBufferPos

theorem haveBufferedLiterals_eq_false {d : RleBatchDecoder} (h : d.buffered = []) :
    d.haveBufferedLiterals = false := by
  simp only [buffered, List.drop_eq_nil_iff] at h
  simp [haveBufferedLiterals]
  omega

/-- Inside a repeated run, or between runs when the count is zero: no literal is left and
the input holds the runs after. -/
structure InRepeated (w : Nat) (d : RleBatchDecoder) (runs : List RleRun) : Prop where
  width : d.bitWidth = w
  noLiterals : d.literalCount = 0
  drained : d.buffered = []
  after : Encodes w d.bitReader.buffer runs

/-- Inside a literal run: the buffered literals, then `unread` more packed in the input in
whole groups, then the bytes of the runs after. -/
structure InLiteral (w : Nat) (d : RleBatchDecoder) (unread : List Nat) (bytes : List UInt8)
    (runs : List RleRun) : Prop where
  width : d.bitWidth = w
  noRepeats : d.repeatCount = 0
  count : d.literalCount = d.buffered.length + unread.length
  groups : 8 ∣ unread.length
  bounded : ∀ v ∈ unread, v < 2 ^ w
  reader : d.bitReader.buffer = pack w unread ++ bytes
  after : Encodes w bytes runs

/-- `Decodes w d vals`: the values `d` has left to deliver are `vals`. -/
inductive Decodes (w : Nat) (d : RleBatchDecoder) : List Nat → Prop
  | repeated {runs : List RleRun} : InRepeated w d runs →
      Decodes w d (List.replicate d.repeatCount d.repeatedValue ++ valuesOf runs)
  | literal {unread : List Nat} {bytes : List UInt8} {runs : List RleRun} :
      InLiteral w d unread bytes runs → Decodes w d (d.buffered ++ unread ++ valuesOf runs)

variable {w : Nat} {d : RleBatchDecoder} {vals : List Nat}

theorem Decodes.of_inLiteral {unread : List Nat} {bytes : List UInt8} {runs : List RleRun}
    (h : InLiteral w d unread bytes runs) (hv : vals = d.buffered ++ unread ++ valuesOf runs) :
    Decodes w d vals := hv ▸ .literal h

theorem Decodes.of_inRepeated {runs : List RleRun} (h : InRepeated w d runs)
    (hv : vals = List.replicate d.repeatCount d.repeatedValue ++ valuesOf runs) :
    Decodes w d vals := hv ▸ .repeated h

theorem Decodes.width (h : Decodes w d vals) : d.bitWidth = w := by
  cases h with
  | repeated h => exact h.width
  | literal h => exact h.width

theorem Decodes.take_repeatCount (h : Decodes w d vals) :
    vals.take d.repeatCount = List.replicate d.repeatCount d.repeatedValue := by
  cases h with
  | repeated h => simp [List.take_left']
  | literal h => simp [h.noRepeats]

theorem Decodes.literalCount_le (h : Decodes w d vals) : d.literalCount ≤ vals.length := by
  cases h with
  | repeated h => simp [h.noLiterals]
  | literal h => simp [h.count]

theorem Decodes.between (h : Decodes w d vals) (hr : d.repeatCount = 0)
    (hl : d.literalCount = 0) :
    ∃ runs, d.buffered = [] ∧ Encodes w d.bitReader.buffer runs ∧ vals = valuesOf runs := by
  cases h with
  | repeated h => exact ⟨_, h.drained, h.after, by simp [hr]⟩
  | @literal unread bytes runs h =>
    have hlen := h.count
    rw [hl] at hlen
    have hb : d.buffered = [] := List.eq_nil_of_length_eq_zero (by omega)
    have hu : unread = [] := List.eq_nil_of_length_eq_zero (by omega)
    subst hu
    exact ⟨runs, hb, by simpa [h.reader] using h.after, by simp [hb]⟩

/-! ### `NextCounts` -/

theorem nextCounts_of_nil (h : d.bitReader.buffer = []) : d.nextCounts = d := by
  have hr : d.bitReader = ⟨[]⟩ := by rw [← h]
  simp [nextCounts, hr, BatchedBitReader.getUleb128_nil]

theorem nextCounts_repeated {hdr bytes : List UInt8} {count value : Nat}
    (hH : IsHeader hdr (count * 2)) (hwf : (repeated count value).WellFormed d.bitWidth)
    (h : d.bitReader.buffer = hdr ++ toBytes value ((d.bitWidth + 7) / 8) ++ bytes) :
    d.nextCounts = { d with bitReader := ⟨bytes⟩, repeatedValue := value, repeatCount := count } := by
  obtain ⟨hc, -, hv⟩ := hwf
  have hread : d.bitReader.getUleb128 32 =
      some (count * 2, ⟨toBytes value ((d.bitWidth + 7) / 8) ++ bytes⟩) := by
    have hr : d.bitReader = ⟨hdr ++ (toBytes value ((d.bitWidth + 7) / 8) ++ bytes)⟩ := by
      rw [← List.append_assoc, ← h]
    rw [hr]
    exact hH _
  have hhalf : count * 2 / 2 = count := by omega
  rw [nextCounts, hread]
  simp [hhalf, Nat.pos_iff_ne_zero.1 hc, BatchedBitReader.getBytes_toBytes_append,
    Nat.mod_eq_of_lt hv]

theorem nextCounts_literal_header {hdr rest : List UInt8} {groups : Nat}
    (hH : IsHeader hdr (groups * 2 + 1)) (hmax : groups * 8 ≤ int32Max)
    (h : d.bitReader.buffer = hdr ++ rest) :
    d.nextCounts = { d with bitReader := ⟨rest⟩, literalCount := groups * 8 } := by
  have hread : d.bitReader.getUleb128 32 = some (groups * 2 + 1, ⟨rest⟩) := by
    have hr : d.bitReader = ⟨hdr ++ rest⟩ := by rw [← h]
    rw [hr]
    exact hH _
  have hodd : (groups * 2 + 1) % 2 = 1 := by omega
  have hhalf : (groups * 2 + 1) / 2 = groups := by omega
  rw [nextCounts, hread]
  simp [hodd, hhalf, Nat.not_lt.2 hmax]

theorem nextCounts_literal {hdr bytes : List UInt8} {values : List Nat}
    (hH : IsHeader hdr (values.length / 8 * 2 + 1)) (hwf : (literal values).WellFormed w)
    (h : d.bitReader.buffer = hdr ++ pack w values ++ bytes) :
    d.nextCounts = { d with bitReader := ⟨pack w values ++ bytes⟩, literalCount := values.length } := by
  obtain ⟨-, h8, hmax, -⟩ := hwf
  have hgroups : values.length / 8 * 8 = values.length := Nat.div_mul_cancel h8
  have hmax' : values.length / 8 * 8 ≤ int32Max := by rw [hgroups]; exact hmax
  rw [nextCounts_literal_header hH hmax' (by rw [h, List.append_assoc]), hgroups]

theorem nextCounts_of_encodes {runs : List RleRun} (hw : d.bitWidth = w)
    (hr : d.repeatCount = 0) (hl : d.literalCount = 0) (hb : d.buffered = [])
    (h : Encodes w d.bitReader.buffer runs) :
    Decodes w d.nextCounts (valuesOf runs) ∧
      (d.nextCounts.repeatCount = 0 → d.nextCounts.literalCount = 0 → runs = []) := by
  generalize hbuf : d.bitReader.buffer = buf at h
  cases h with
  | nil =>
    rw [nextCounts_of_nil hbuf]
    have henc : Encodes w d.bitReader.buffer [] := hbuf ▸ Encodes.nil
    exact ⟨.of_inRepeated ⟨hw, hl, hb, henc⟩ (by simp [hr]), fun _ _ => rfl⟩
  | @repeated hdr bytes count value rest hH hwf hrest =>
    rw [nextCounts_repeated hH (hw ▸ hwf) (by rw [hbuf, hw])]
    exact ⟨.of_inRepeated ⟨hw, hl, hb, hrest⟩ (by simp), fun h0 => absurd h0 (by simpa using hwf.1.ne')⟩
  | @literal hdr bytes values rest hH hwf hrest =>
    rw [nextCounts_literal hH hwf hbuf]
    refine ⟨.of_inLiteral ⟨hw, hr, by simp [buffered] at hb ⊢; simp [hb], hwf.2.1, hwf.2.2.2,
      rfl, hrest⟩ (by simp [buffered] at hb ⊢; simp [hb]), fun _ h0 => ?_⟩
    simp only at h0
    exact absurd h0 hwf.1.ne'

theorem Decodes.nextCounts (h : Decodes w d vals) (hr : d.repeatCount = 0)
    (hl : d.literalCount = 0) :
    Decodes w d.nextCounts vals ∧
      (d.nextCounts.repeatCount = 0 → d.nextCounts.literalCount = 0 → vals = []) := by
  obtain ⟨runs, hb, henc, rfl⟩ := h.between hr hl
  obtain ⟨hd, hend⟩ := nextCounts_of_encodes h.width hr hl hb henc
  exact ⟨hd, fun h1 h2 => by rw [hend h1 h2, valuesOf_nil]⟩

/-! ### The run-level calls -/

theorem nextCounts_buffered (d : RleBatchDecoder) : d.nextCounts.buffered = d.buffered := by
  unfold RleBatchDecoder.nextCounts
  split
  · rfl
  · dsimp only
    split_ifs
    all_goals first | rfl | split <;> rfl

theorem Decodes.nextNumRepeats (h : Decodes w d vals) :
    ∃ d', d.nextNumRepeats = (d'.repeatCount, d') ∧ Decodes w d' vals ∧ d'.buffered = d.buffered := by
  unfold RleBatchDecoder.nextNumRepeats
  by_cases hr : d.repeatCount > 0
  · exact ⟨d, by simp [hr], h, rfl⟩
  · by_cases hl : d.literalCount = 0
    · exact ⟨d.nextCounts, by simp [hr, hl], (h.nextCounts (by omega) hl).1, nextCounts_buffered d⟩
    · exact ⟨d, by simp [hr, hl], h, rfl⟩

theorem Decodes.nextNumLiterals (h : Decodes w d vals) :
    ∃ d', d.nextNumLiterals = (d'.literalCount, d') ∧ Decodes w d' vals ∧ d'.buffered = d.buffered := by
  unfold RleBatchDecoder.nextNumLiterals
  by_cases hl : d.literalCount > 0
  · exact ⟨d, by simp [hl], h, rfl⟩
  · by_cases hr : d.repeatCount = 0
    · exact ⟨d.nextCounts, by simp [hr, hl], (h.nextCounts hr (by omega)).1, nextCounts_buffered d⟩
    · exact ⟨d, by simp [hr, hl], h, rfl⟩

theorem Decodes.eq_nil_of_no_run (h : Decodes w d vals)
    (hr : d.nextNumRepeats.1 = 0) (hl : d.nextNumRepeats.2.nextNumLiterals.1 = 0) : vals = [] := by
  unfold RleBatchDecoder.nextNumRepeats at hr hl
  by_cases hr0 : d.repeatCount > 0
  · simp [hr0] at hr
    omega
  · by_cases hl0 : d.literalCount = 0
    · simp only [hr0, hl0, if_false, if_true] at hr hl
      unfold RleBatchDecoder.nextNumLiterals at hl
      by_cases hl1 : d.nextCounts.literalCount > 0
      · simp [hl1] at hl
        omega
      · exact (h.nextCounts (by omega) hl0).2 hr (by omega)
    · have hl1 : d.literalCount > 0 := by omega
      simp only [hr0, hl0, if_false] at hl
      unfold RleBatchDecoder.nextNumLiterals at hl
      simp [hl1] at hl
      exact absurd hl hl0

theorem Decodes.getRepeatedValue (h : Decodes w d vals) {n : Nat} (hn : n ≤ d.repeatCount) :
    ∃ d', d.getRepeatedValue n = (d.repeatedValue, d') ∧
      vals.take n = List.replicate n d.repeatedValue ∧ Decodes w d' (vals.drop n) := by
  refine ⟨{ d with repeatCount := d.repeatCount - n }, rfl, ?_⟩
  cases h with
  | repeated h =>
    have hlen : n ≤ (List.replicate d.repeatCount d.repeatedValue).length := by simpa using hn
    refine ⟨by simp [List.take_append_of_le_length hlen, hn], ?_⟩
    exact .of_inRepeated ⟨h.width, h.noLiterals, h.drained, h.after⟩
      (by simp [List.drop_append_of_le_length hlen])
  | literal h =>
    obtain rfl : n = 0 := by have := h.noRepeats; omega
    exact ⟨rfl, .literal h⟩

/-! ### Literal runs -/

section Literal

variable {unread : List Nat} {bytes : List UInt8} {runs : List RleRun}

theorem InLiteral.outputBuffered (h : InLiteral w d unread bytes runs) (n : Nat) :
    (d.outputBufferedLiterals n).1 = d.buffered.take n ∧
      (d.outputBufferedLiterals n).2.buffered = d.buffered.drop n ∧
      InLiteral w (d.outputBufferedLiterals n).2 unread bytes runs := by
  have hlen : d.buffered.length = d.literalBuffer.length - d.literalBufferPos := by
    simp [buffered]
  have hdrop : (d.outputBufferedLiterals n).2.buffered = d.buffered.drop n := by
    simp only [outputBufferedLiterals, buffered, List.drop_drop]
    rcases le_total n (d.literalBuffer.length - d.literalBufferPos) with hle | hle
    · rw [min_eq_left hle]
    · rw [min_eq_right hle, List.drop_eq_nil_of_le (by omega), List.drop_eq_nil_of_le (by omega)]
  refine ⟨?_, hdrop, ⟨h.width, h.noRepeats, ?_, h.groups, h.bounded, h.reader, h.after⟩⟩
  · simp only [outputBufferedLiterals]
    rw [← hlen]
    exact List.take_eq_take_min.symm
  · rw [hdrop, List.length_drop]
    simp only [outputBufferedLiterals]
    rw [h.count, hlen]
    omega

theorem InLiteral.skipBuffered (h : InLiteral w d unread bytes runs) (n : Nat) :
    (d.skipBufferedLiterals n).1 = min n d.buffered.length ∧
      (d.skipBufferedLiterals n).2.buffered = d.buffered.drop n ∧
      InLiteral w (d.skipBufferedLiterals n).2 unread bytes runs := by
  have hstate : (d.skipBufferedLiterals n).2 = (d.outputBufferedLiterals n).2 := rfl
  obtain ⟨-, hb, h'⟩ := h.outputBuffered n
  refine ⟨by simp [skipBufferedLiterals, buffered], hstate ▸ hb, hstate ▸ h'⟩

theorem buffered_eq_nil_of_haveBufferedLiterals {d : RleBatchDecoder}
    (h : d.haveBufferedLiterals = false) : d.buffered = [] := by
  simp only [haveBufferedLiterals, decide_eq_false_iff_not, Nat.not_lt] at h
  exact List.drop_eq_nil_of_le h

theorem InLiteral.takeBuffered (h : InLiteral w d unread bytes runs) (n : Nat) :
    ∃ d1, (if d.haveBufferedLiterals then d.outputBufferedLiterals n else ([], d)) =
        (d.buffered.take n, d1) ∧
      d1.buffered = d.buffered.drop n ∧ d1.bitReader = d.bitReader ∧
      InLiteral w d1 unread bytes runs := by
  cases hhave : d.haveBufferedLiterals with
  | true =>
    obtain ⟨hout, hb, h'⟩ := h.outputBuffered n
    exact ⟨_, by rw [if_pos rfl, ← hout], hb, rfl, h'⟩
  | false =>
    have hb := buffered_eq_nil_of_haveBufferedLiterals hhave
    exact ⟨d, by simp [hb], by simp [hb], rfl, h⟩

theorem InLiteral.unpackBatch (h : InLiteral w d unread bytes runs) {m : Nat} (hm : 8 ∣ m)
    (hle : m ≤ unread.length) :
    d.bitReader.unpackBatch d.bitWidth m = (unread.take m, ⟨pack w (unread.drop m) ++ bytes⟩) := by
  have hr : d.bitReader = ⟨pack w unread ++ bytes⟩ := by rw [← h.reader]
  rw [hr, h.width]
  exact BatchedBitReader.unpackBatch_pack_append h.bounded h.groups hm hle bytes

theorem InLiteral.advance (h : InLiteral w d unread bytes runs) (hb : d.buffered = [])
    {m : Nat} (hm : 8 ∣ m) (hle : m ≤ unread.length) :
    InLiteral w
      { d with
        bitReader := ⟨pack w (unread.drop m) ++ bytes⟩
        literalCount := d.literalCount - m }
      (unread.drop m) bytes runs where
  width := h.width
  noRepeats := h.noRepeats
  count := by
    have := h.count
    simp only [buffered] at hb this ⊢
    simp [hb] at this ⊢
    omega
  groups := by rw [List.length_drop]; exact Nat.dvd_sub h.groups hm
  bounded := fun v hv => h.bounded v (List.mem_of_mem_drop hv)
  reader := rfl
  after := h.after

theorem InLiteral.fillBuffer (h : InLiteral w d unread bytes runs) (hb : d.buffered = []) :
    ∃ d', d.fillLiteralBuffer = (true, d') ∧ d'.buffered = unread.take literalBufferLen ∧
      d'.bitReader = ⟨pack w (unread.drop literalBufferLen) ++ bytes⟩ ∧
      InLiteral w d' (unread.drop literalBufferLen) bytes runs := by
  have hlc : d.literalCount = unread.length := by rw [h.count, hb, List.length_nil, zero_add]
  have hk8 : 8 ∣ min literalBufferLen d.literalCount := by
    rcases min_choice literalBufferLen d.literalCount with hk | hk <;> rw [hk]
    · exact ⟨4, rfl⟩
    · exact hlc ▸ h.groups
  have hk : min literalBufferLen d.literalCount ≤ unread.length := hlc ▸ min_le_right _ _
  have htake : unread.take (min literalBufferLen d.literalCount) = unread.take literalBufferLen := by
    rw [hlc, ← List.take_eq_take_min]
  have hdrop : unread.drop (min literalBufferLen d.literalCount) = unread.drop literalBufferLen := by
    rw [hlc, ← List.drop_eq_drop_min]
  refine ⟨
    { d with
      bitReader := ⟨pack w (unread.drop literalBufferLen) ++ bytes⟩
      literalBuffer := unread.take literalBufferLen
      literalBufferPos := 0 },
    ?_, by simp [buffered], rfl, ?_⟩
  · simp only [fillLiteralBuffer, h.unpackBatch hk8 hk, htake, hdrop, List.length_take]
    simp [hlc]
  · refine ⟨h.width, h.noRepeats, ?_, ?_, ?_, rfl, h.after⟩
    · simp only [buffered, List.drop_zero, List.length_take, List.length_drop]
      rw [hlc]
      omega
    · rw [← hdrop, List.length_drop]
      exact Nat.dvd_sub h.groups hk8
    · exact fun v hv => h.bounded v (List.mem_of_mem_drop hv)

theorem InLiteral.fillThenOutput (h : InLiteral w d unread bytes runs) (hb : d.buffered = [])
    {r : Nat} (hr : r ≤ literalBufferLen) (hru : r ≤ unread.length) :
    ∃ d3 d4 unread4, d.fillLiteralBuffer = (true, d3) ∧
      d3.outputBufferedLiterals r = (unread.take r, d4) ∧ InLiteral w d4 unread4 bytes runs ∧
      d4.buffered ++ unread4 = unread.drop r := by
  obtain ⟨d3, hf, hb3, -, h3⟩ := h.fillBuffer hb
  obtain ⟨hout, hb4, h4⟩ := h3.outputBuffered r
  have hlen : r ≤ (unread.take literalBufferLen).length := by simp [hr, hru]
  refine ⟨d3, _, _, hf, Prod.ext ?_ rfl, h4, ?_⟩
  · rw [hout, hb3, List.take_take, min_eq_left hr]
  · rw [hb4, hb3, ← List.drop_append_of_le_length hlen, List.take_append_drop]

theorem InLiteral.batchSplit (h : InLiteral w d unread bytes runs) {n m r : Nat}
    (hn : n ≤ d.literalCount) (hgt : d.buffered.length < n)
    (hm : m = (n - d.buffered.length) / 32 * 32) (hr : r = n - d.buffered.length - m) :
    8 ∣ m ∧ m ≤ unread.length ∧ r ≤ literalBufferLen ∧ r ≤ (unread.drop m).length ∧
      (d.buffered ++ unread).take n = d.buffered ++ unread.take m ++ (unread.drop m).take r ∧
      (d.buffered ++ unread).drop n = (unread.drop m).drop r := by
  have hru : n - d.buffered.length ≤ unread.length := by have := h.count; omega
  have hmle : m ≤ unread.length := hm ▸ le_trans (Nat.div_mul_le_self _ _) hru
  refine ⟨hm ▸ Dvd.dvd.mul_left ⟨4, rfl⟩ _, hmle, ?_, ?_, ?_, ?_⟩
  · unfold literalBufferLen; omega
  · rw [List.length_drop]; omega
  · rw [List.take_append, List.take_of_length_le (by omega), List.append_assoc, ← List.take_add]
    congr 2
    omega
  · rw [List.drop_append, List.drop_eq_nil_of_le (by omega), List.nil_append, List.drop_drop]
    congr 1
    omega

theorem InLiteral.getLiteralValues (h : InLiteral w d unread bytes runs) {n : Nat}
    (hn : n ≤ d.literalCount) :
    ∃ d' unread', d.getLiteralValues n = (true, (d.buffered ++ unread).take n, d') ∧
      InLiteral w d' unread' bytes runs ∧ d'.buffered ++ unread' = (d.buffered ++ unread).drop n := by
  obtain ⟨d1, he1, hb1, hrd1, h1⟩ := h.takeBuffered n
  unfold RleBatchDecoder.getLiteralValues
  rw [he1]
  dsimp only
  by_cases hle : n ≤ d.buffered.length
  · have hout : (d.buffered.take n).length = n := by simp [hle]
    simp only [hout, Nat.sub_self, Nat.zero_div, zero_mul, min_zero, gt_iff_lt,
      lt_self_iff_false, if_false, Bool.not_true, Bool.false_eq_true]
    refine ⟨d1, unread, by rw [List.take_append_of_le_length hle], h1, ?_⟩
    rw [hb1, List.drop_append_of_le_length hle]
  · have hB : d.buffered.take n = d.buffered := List.take_of_length_le (by omega)
    have hb1' : d1.buffered = [] := by rw [hb1]; exact List.drop_eq_nil_of_le (by omega)
    have hlc1 : d1.literalCount = unread.length := by rw [h1.count, hb1', List.length_nil, zero_add]
    simp only [hB]
    set m := (n - d.buffered.length) / 32 * 32 with hm
    set r2 := n - d.buffered.length - m with hr2eq
    obtain ⟨hm8, hmle, hr2, hr2u, htake, hdrop⟩ := h.batchSplit hn (by omega) hm hr2eq
    have hmin : min d1.literalCount m = m := by rw [hlc1]; exact min_eq_right hmle
    simp only [hmin]
    by_cases hm0 : m > 0
    · have h2 := h1.advance hb1' hm8 hmle
      have hleft : n - (d.buffered.length + m) = r2 := by omega
      simp only [hm0, if_true, h1.unpackBatch hm8 hmle, List.length_take, min_eq_left hmle,
        lt_self_iff_false, if_false, Bool.not_true, Bool.false_eq_true, List.length_append, hleft]
      by_cases hr0 : r2 > 0
      · obtain ⟨d3, d4, u4, hf, ho, h4, hp4⟩ := h2.fillThenOutput hb1' hr2 hr2u
        simp only [hr0, if_true, hf, ho]
        exact ⟨d4, u4, by rw [htake, List.append_assoc], h4, by rw [hp4, hdrop]⟩
      · have hr0' : r2 = 0 := by omega
        simp only [hr0, if_false]
        refine ⟨_, _, by rw [htake, hr0', List.take_zero, List.append_nil], h2, ?_⟩
        rw [hdrop, hr0', List.drop_zero]
        exact congrArg (· ++ _) hb1'
    · have hm0' : m = 0 := by omega
      have hr0 : n - d.buffered.length > 0 := by omega
      obtain ⟨d3, d4, u4, hf, ho, h4, hp4⟩ :=
        h1.fillThenOutput (r := n - d.buffered.length) hb1' (by omega)
          (by simp only [hm0', List.drop_zero] at hr2u; omega)
      simp only [hm0, if_false, Bool.not_true, Bool.false_eq_true, hr0, if_true, hf, ho]
      refine ⟨d4, u4, ?_, h4, ?_⟩
      · rw [htake, hr2eq, hm0']
        simp
      · rw [hp4, hdrop, hr2eq, hm0']
        simp

theorem InLiteral.skipBatch (h : InLiteral w d unread bytes runs) {m : Nat} (hm : 8 ∣ m)
    (hle : m ≤ unread.length) (hfit : w * m + 7 < 2 ^ 32) :
    (d.bitReader.skipBatch d.bitWidth m).getD d.bitReader = ⟨pack w (unread.drop m) ++ bytes⟩ := by
  have hr : d.bitReader = ⟨pack w unread ++ bytes⟩ := by rw [← h.reader]
  rw [hr, h.width, BatchedBitReader.skipBatch_pack_append h.bounded hm hle hfit bytes,
    Option.getD_some]

theorem InLiteral.fillThenSkip (h : InLiteral w d unread bytes runs) (hb : d.buffered = [])
    {r : Nat} (hr : r ≤ literalBufferLen) (hru : r ≤ unread.length) :
    ∃ d3 d4 unread4, d.fillLiteralBuffer = (true, d3) ∧ d3.skipBufferedLiterals r = (r, d4) ∧
      InLiteral w d4 unread4 bytes runs ∧ d4.buffered ++ unread4 = unread.drop r := by
  obtain ⟨d3, hf, hb3, -, h3⟩ := h.fillBuffer hb
  obtain ⟨hskip, hb4, h4⟩ := h3.skipBuffered r
  have hlen : r ≤ (unread.take literalBufferLen).length := by simp [hr, hru]
  refine ⟨d3, _, _, hf, Prod.ext ?_ rfl, h4, ?_⟩
  · rw [hskip, hb3]
    exact min_eq_left hlen
  · rw [hb4, hb3, ← List.drop_append_of_le_length hlen, List.take_append_drop]

theorem InLiteral.skipLiteralValues (h : InLiteral w d unread bytes runs) (hb : d.buffered = [])
    {n : Nat} (hn : n ≤ d.literalCount) (hfit : w * n + 7 < 2 ^ 32) :
    ∃ d' unread', d.skipLiteralValues n = (true, d') ∧ InLiteral w d' unread' bytes runs ∧
      d'.buffered ++ unread' = unread.drop n := by
  have hlc : d.literalCount = unread.length := by rw [h.count, hb, List.length_nil, zero_add]
  have hm8 : 8 ∣ n / 32 * 32 := Dvd.dvd.mul_left ⟨4, rfl⟩ _
  have hmle : n / 32 * 32 ≤ unread.length := le_trans (Nat.div_mul_le_self _ _) (hlc ▸ hn)
  have hmin : min d.literalCount (n / 32 * 32) = n / 32 * 32 := by rw [hlc]; exact min_eq_right hmle
  have hr : n - n / 32 * 32 ≤ literalBufferLen := by unfold literalBufferLen; omega
  have hdrop : unread.drop n = (unread.drop (n / 32 * 32)).drop (n - n / 32 * 32) := by
    rw [List.drop_drop]
    congr 1
    omega
  unfold RleBatchDecoder.skipLiteralValues
  simp only [hmin]
  by_cases hm0 : n / 32 * 32 > 0
  · have h2 := h.advance hb hm8 hmle
    have hfit' : w * (n / 32 * 32) + 7 < 2 ^ 32 :=
      lt_of_le_of_lt (Nat.add_le_add_right (Nat.mul_le_mul_left w (Nat.div_mul_le_self n 32)) 7) hfit
    simp only [hm0, if_true, h.skipBatch hm8 hmle hfit']
    by_cases hr0 : n - n / 32 * 32 > 0
    · obtain ⟨d3, d4, u4, hf, hs, h4, hp4⟩ :=
        h2.fillThenSkip hb hr (by rw [List.length_drop]; omega)
      simp only [hr0, if_true, hf, hs, decide_true]
      exact ⟨d4, u4, rfl, h4, by rw [hp4, hdrop]⟩
    · have hr0' : n - n / 32 * 32 = 0 := by omega
      simp only [hr0, if_false]
      refine ⟨_, _, rfl, h2, ?_⟩
      rw [hdrop, hr0', List.drop_zero]
      exact congrArg (· ++ _) hb
  · have hm0' : n / 32 * 32 = 0 := by omega
    rw [hm0'] at hr
    by_cases hn0 : n > 0
    · obtain ⟨d3, d4, u4, hf, hs, h4, hp4⟩ := h.fillThenSkip hb (by simpa using hr) (hlc ▸ hn)
      simp only [hm0', Nat.sub_zero, gt_iff_lt, lt_self_iff_false, if_false, hn0, if_true, hf, hs,
        decide_true]
      exact ⟨d4, u4, rfl, h4, hp4⟩
    · have hn0' : n = 0 := by omega
      subst hn0'
      simp only [hm0, if_false]
      exact ⟨d, unread, rfl, h, by rw [hb, List.drop_zero, List.nil_append]⟩

end Literal

/-! ### The value-level calls -/

theorem Decodes.getLiteralValues (h : Decodes w d vals) {n : Nat} (hn : n ≤ d.literalCount) :
    ∃ d', d.getLiteralValues n = (true, vals.take n, d') ∧ Decodes w d' (vals.drop n) := by
  cases h with
  | repeated h =>
    obtain rfl : n = 0 := by have := h.noLiterals; omega
    refine ⟨d, ?_, by simpa using Decodes.repeated h⟩
    simp [RleBatchDecoder.getLiteralValues, haveBufferedLiterals_eq_false h.drained]
  | @literal unread bytes runs h =>
    obtain ⟨d', u', he, h', hp⟩ := h.getLiteralValues hn
    have hlen : n ≤ (d.buffered ++ unread).length := by rw [List.length_append, ← h.count]; exact hn
    refine ⟨d', ?_, .of_inLiteral h' ?_⟩
    · rw [he, List.take_append_of_le_length hlen]
    · rw [hp, List.drop_append_of_le_length hlen]

theorem Decodes.skipLiteralValues (h : Decodes w d vals) (hb : d.buffered = []) {n : Nat}
    (hn : n ≤ d.literalCount) (hfit : w * n + 7 < 2 ^ 32) :
    ∃ d', d.skipLiteralValues n = (true, d') ∧ Decodes w d' (vals.drop n) ∧
      (n = d.literalCount → d'.buffered = []) := by
  cases h with
  | repeated h =>
    obtain rfl : n = 0 := by have := h.noLiterals; omega
    exact ⟨d, by simp [RleBatchDecoder.skipLiteralValues], by simpa using Decodes.repeated h,
      fun _ => hb⟩
  | @literal unread bytes runs h =>
    obtain ⟨d', u', he, h', hp⟩ := h.skipLiteralValues hb hn hfit
    have hlen : n ≤ (d.buffered ++ unread).length := by rw [List.length_append, ← h.count]; exact hn
    refine ⟨d', he, .of_inLiteral h' ?_, fun hall => ?_⟩
    · rw [hp, List.drop_append_of_le_length hlen, hb, List.nil_append]
    · have hnil : unread.drop n = [] := List.drop_eq_nil_of_le (by rw [hall, h.count, hb]; simp)
      rw [hnil] at hp
      exact List.append_eq_nil_iff.1 hp |>.1

theorem Decodes.getSingleValue (h : Decodes w d vals) :
    ∃ d', d.getSingleValue = (vals.head?, d') ∧ Decodes w d' (vals.drop 1) := by
  obtain ⟨d1, he1, h1, -⟩ := h.nextNumRepeats
  unfold RleBatchDecoder.getSingleValue
  rw [he1]
  dsimp only
  by_cases hr : d1.repeatCount > 0
  · obtain ⟨d2, he2, htake, h2⟩ := h1.getRepeatedValue (n := 1) (by omega)
    refine ⟨d2, ?_, h2⟩
    simp only [hr, if_true, he2, Prod.mk.injEq, and_true]
    cases vals with
    | nil => simp at htake
    | cons v vs => simpa using htake.symm
  · obtain ⟨d2, he2, h2, -⟩ := h1.nextNumLiterals
    by_cases hl : d2.literalCount > 0
    · obtain ⟨d3, he3, h3⟩ := h2.getLiteralValues (n := 1) (by omega)
      refine ⟨d3, by simp [hr, he2, hl, he3, List.head?_take], h3⟩
    · have hnil : vals = [] := h.eq_nil_of_no_run (by rw [he1]; simpa using hr)
        (by rw [he1]; simp only [he2]; simpa using hl)
      subst hnil
      exact ⟨d2, by simp [hr, he2, hl], h2⟩

theorem take_drop_turn {vals : List Nat} {t left : Nat} (ht : t ≤ left) (htv : t ≤ vals.length) :
    t + min (left - t) (vals.drop t).length = min left vals.length ∧
      vals.take t ++ (vals.drop t).take (left - t) = vals.take left ∧
      (vals.drop t).drop (left - t) = vals.drop left := by
  refine ⟨by rw [List.length_drop]; omega, ?_, ?_⟩
  · rw [← List.take_add, Nat.add_sub_cancel' ht]
  · rw [List.drop_drop, Nat.add_sub_cancel' ht]

theorem Decodes.getValuesFrom (k : Nat) :
    ∀ (c : Nat) (acc : List Nat) (d : RleBatchDecoder) (vals : List Nat), Decodes w d vals →
      ∃ d', getValuesFrom k c acc d = (c + min (k - c) vals.length, acc ++ vals.take (k - c), d') ∧
        Decodes w d' (vals.drop (k - c)) := by
  intro c
  induction hleft : k - c using Nat.strong_induction_on generalizing c with
  | _ left ih =>
  subst hleft
  intro acc d vals h
  rw [RleBatchDecoder.getValuesFrom]
  by_cases hc : c < k
  · obtain ⟨d1, he1, h1, -⟩ := h.nextNumRepeats
    simp only [hc, if_true, he1]
    by_cases hr : d1.repeatCount > 0
    · obtain ⟨d2, he2, htake, h2⟩ := h1.getRepeatedValue (min_le_left d1.repeatCount (k - c))
      have hlen : min d1.repeatCount (k - c) ≤ vals.length := by
        have := congrArg List.length htake
        simp only [List.length_take, List.length_replicate] at this
        omega
      obtain ⟨d3, he3, h3⟩ := ih (k - (c + min d1.repeatCount (k - c))) (by omega) _ rfl
        (acc ++ List.replicate (min d1.repeatCount (k - c)) d1.repeatedValue) d2 _ h2
      obtain ⟨hcount, hvals, hrest⟩ := take_drop_turn (min_le_right _ _) hlen
      have hk : k - (c + min d1.repeatCount (k - c)) = k - c - min d1.repeatCount (k - c) := by
        omega
      simp only [hr, dif_pos, he2, he3, hk, Prod.mk.injEq]
      refine ⟨d3, ⟨by omega, by rw [← htake, List.append_assoc, hvals], rfl⟩, ?_⟩
      rwa [hk, hrest] at h3
    · obtain ⟨d2, he2, h2, -⟩ := h1.nextNumLiterals
      simp only [hr, he2]
      by_cases hl : d2.literalCount = 0
      · have hnil : vals = [] := h.eq_nil_of_no_run (by rw [he1]; simpa using hr)
          (by rw [he1]; simp only [he2]; exact hl)
        subst hnil
        exact ⟨d2, by simp [hl], by simpa using h2⟩
      · obtain ⟨d3, he3, h3⟩ := h2.getLiteralValues (min_le_left d2.literalCount (k - c))
        have hlen : min d2.literalCount (k - c) ≤ vals.length :=
          le_trans (min_le_left _ _) h2.literalCount_le
        obtain ⟨d4, he4, h4⟩ := ih (k - (c + min d2.literalCount (k - c))) (by omega) _ rfl
          (acc ++ vals.take (min d2.literalCount (k - c))) d3 _ h3
        obtain ⟨hcount, hvals, hrest⟩ := take_drop_turn (min_le_right _ _) hlen
        have hk : k - (c + min d2.literalCount (k - c)) = k - c - min d2.literalCount (k - c) := by
          omega
        simp only [hl, dite_false, he3, he4, hk, Prod.mk.injEq]
        refine ⟨d4, ⟨by omega, by rw [List.append_assoc, hvals], rfl⟩, ?_⟩
        rwa [hk, hrest] at h4
  · have hkc : k - c = 0 := by omega
    exact ⟨d, by simp [hc, hkc], by simpa [hkc] using h⟩

theorem Decodes.length_buffered_le (h : Decodes w d vals) : d.buffered.length ≤ vals.length := by
  cases h with
  | repeated h => simp [h.drained]
  | literal h => simp

theorem Decodes.skipBuffered (h : Decodes w d vals) (k : Nat) :
    ∃ d1, (if d.haveBufferedLiterals then d.skipBufferedLiterals k else (0, d)) =
        (min k d.buffered.length, d1) ∧
      Decodes w d1 (vals.drop (min k d.buffered.length)) ∧
      (min k d.buffered.length < k → d1.buffered = []) := by
  cases h with
  | repeated h =>
    refine ⟨d, by simp [haveBufferedLiterals_eq_false h.drained, h.drained], ?_,
      fun _ => h.drained⟩
    simpa [h.drained] using Decodes.repeated h
  | @literal unread bytes runs h =>
    cases hhave : d.haveBufferedLiterals with
    | true =>
      obtain ⟨hskip, hb, h'⟩ := h.skipBuffered k
      refine ⟨_, by rw [if_pos rfl, ← hskip], .of_inLiteral h' ?_, fun hlt => ?_⟩
      · rw [hb, List.append_assoc, List.drop_append_of_le_length (min_le_right _ _),
          ← List.drop_eq_drop_min, List.append_assoc]
      · rw [hb]
        exact List.drop_eq_nil_of_le (by omega)
    | false =>
      have hb := buffered_eq_nil_of_haveBufferedLiterals hhave
      exact ⟨d, by simp [hb], by simpa [hb] using Decodes.literal h, fun _ => hb⟩

theorem fit_drop (hfit : w * vals.length + 7 < 2 ^ 32) (n : Nat) :
    w * (vals.drop n).length + 7 < 2 ^ 32 :=
  lt_of_le_of_lt (Nat.add_le_add_right (Nat.mul_le_mul_left w (by simp)) 7) hfit

theorem Decodes.skipValuesFrom (k : Nat) :
    ∀ (c : Nat) (d : RleBatchDecoder) (vals : List Nat), Decodes w d vals →
      w * vals.length + 7 < 2 ^ 32 → (c < k → d.buffered = []) →
      ∃ d', skipValuesFrom k c d = (c + min (k - c) vals.length, d') ∧
        Decodes w d' (vals.drop (k - c)) := by
  intro c
  induction hleft : k - c using Nat.strong_induction_on generalizing c with
  | _ left ih =>
  subst hleft
  intro d vals h hfit hbuf
  rw [RleBatchDecoder.skipValuesFrom]
  by_cases hc : c < k
  · obtain ⟨d1, he1, h1, hb1⟩ := h.nextNumRepeats
    simp only [hc, if_true, he1]
    by_cases hr : d1.repeatCount > 0
    · obtain ⟨d2, he2, htake, h2⟩ := h1.getRepeatedValue (min_le_left d1.repeatCount (k - c))
      have hd2 : { d1 with repeatCount := d1.repeatCount - min d1.repeatCount (k - c) } = d2 :=
        congrArg Prod.snd he2
      have hlen : min d1.repeatCount (k - c) ≤ vals.length := by
        have := congrArg List.length htake
        simp only [List.length_take, List.length_replicate] at this
        omega
      obtain ⟨d3, he3, h3⟩ := ih (k - (c + min d1.repeatCount (k - c))) (by omega) _ rfl d2 _ h2
        (fit_drop hfit _) (fun _ => by rw [← hd2]; exact hb1.trans (hbuf hc))
      obtain ⟨hcount, -, hrest⟩ := take_drop_turn (min_le_right _ _) hlen
      have hk : k - (c + min d1.repeatCount (k - c)) = k - c - min d1.repeatCount (k - c) := by
        omega
      simp only [hr, dif_pos, hd2, he3, hk, Prod.mk.injEq]
      refine ⟨d3, ⟨by omega, rfl⟩, ?_⟩
      rwa [hk, hrest] at h3
    · obtain ⟨d2, he2, h2, hb2⟩ := h1.nextNumLiterals
      simp only [hr, he2]
      by_cases hl : d2.literalCount = 0
      · have hnil : vals = [] := h.eq_nil_of_no_run (by rw [he1]; simpa using hr)
          (by rw [he1]; simp only [he2]; exact hl)
        subst hnil
        exact ⟨d2, by simp [hl], by simpa using h2⟩
      · have hlen : min d2.literalCount (k - c) ≤ vals.length :=
          le_trans (min_le_left _ _) h2.literalCount_le
        obtain ⟨d3, he3, h3, hb3⟩ := h2.skipLiteralValues (hb2.trans (hb1.trans (hbuf hc)))
          (min_le_left d2.literalCount (k - c))
          (lt_of_le_of_lt (Nat.add_le_add_right (Nat.mul_le_mul_left w hlen) 7) hfit)
        obtain ⟨d4, he4, h4⟩ := ih (k - (c + min d2.literalCount (k - c))) (by omega) _ rfl d3 _ h3
          (fit_drop hfit _) (fun hlt => hb3 (by omega))
        obtain ⟨hcount, -, hrest⟩ := take_drop_turn (min_le_right _ _) hlen
        have hk : k - (c + min d2.literalCount (k - c)) = k - c - min d2.literalCount (k - c) := by
          omega
        simp only [hl, dite_false, he3, he4, hk, Prod.mk.injEq]
        refine ⟨d4, ⟨by omega, rfl⟩, ?_⟩
        rwa [hk, hrest] at h4
  · have hkc : k - c = 0 := by omega
    exact ⟨d, by simp [hc, hkc], by simpa [hkc] using h⟩

theorem Decodes.getValues (h : Decodes w d vals) (k : Nat) :
    ∃ d', d.getValues k = (min k vals.length, vals.take k, d') ∧ Decodes w d' (vals.drop k) := by
  simpa [RleBatchDecoder.getValues] using h.getValuesFrom k 0 [] d vals

theorem Decodes.skipValues (h : Decodes w d vals) (hfit : w * vals.length + 7 < 2 ^ 32) (k : Nat) :
    ∃ d', d.skipValues k = (min k vals.length, d') ∧ Decodes w d' (vals.drop k) := by
  obtain ⟨d1, he1, h1, hb1⟩ := h.skipBuffered k
  have hlen : min k d.buffered.length ≤ vals.length :=
    le_trans (min_le_right _ _) h.length_buffered_le
  obtain ⟨d2, he2, h2⟩ := h1.skipValuesFrom k (min k d.buffered.length) d1 _ (fit_drop hfit _) hb1
  obtain ⟨hcount, -, hrest⟩ := take_drop_turn (min_le_left k d.buffered.length) hlen
  unfold RleBatchDecoder.skipValues
  rw [he1]
  dsimp only
  rw [he2, hcount]
  exact ⟨d2, rfl, hrest ▸ h2⟩

theorem skipValuesFrom_le (k c : Nat) (d : RleBatchDecoder) (hc : c ≤ k) :
    (skipValuesFrom k c d).1 ≤ k := by
  fun_induction skipValuesFrom k c d with
  | case1 c _ _ _ _ _ _ n ih => exact ih (by have : n ≤ k - c := min_le_right _ _; omega)
  | case2 => exact hc
  | case3 => exact Nat.zero_le _
  | case4 c _ _ _ _ _ _ _ _ _ _ n _ _ ih =>
    exact ih (by have : n ≤ k - c := min_le_right _ _; omega)
  | case5 => exact hc

theorem skipValues_le (d : RleBatchDecoder) (k : Nat) : (d.skipValues k).1 ≤ k := by
  unfold skipValues
  split_ifs
  · exact skipValuesFrom_le k _ _ (min_le_left _ _)
  · exact skipValuesFrom_le k 0 d (Nat.zero_le _)

theorem reset_decodes {buffer : List UInt8} {runs : List RleRun} (h : Encodes w buffer runs) :
    Decodes w (reset buffer w) (valuesOf runs) :=
  .of_inRepeated ⟨rfl, rfl, rfl, h⟩ (by simp [reset])

end RleBatchDecoder

/-! ### Any sequence of calls -/

/-- The calls a reader makes of an `RleBatchDecoder`. -/
inductive RleCall
  | getValues (k : Nat)
  | getSingleValue
  | skipValues (k : Nat)
  | nextNumRepeats
  | getRepeatedValue (n : Nat)
  | nextNumLiterals
  | getLiteralValues (n : Nat)
  deriving DecidableEq, Repr

/-- What a call returns. -/
inductive RleOutput
  | count (n : Nat)
  | values (n : Nat) (vs : List Nat)
  | single (v : Option Nat)
  | repeated (v : Nat)
  | literals (ok : Bool) (vs : List Nat)
  deriving DecidableEq, Repr

namespace RleCall

open RleBatchDecoder

def run (d : RleBatchDecoder) : RleCall → RleOutput × RleBatchDecoder
  | getValues k => let (n, vs, d) := d.getValues k; (.values n vs, d)
  | getSingleValue => let (v, d) := d.getSingleValue; (.single v, d)
  | skipValues k => let (n, d) := d.skipValues k; (.count n, d)
  | nextNumRepeats => let (n, d) := d.nextNumRepeats; (.count n, d)
  | getRepeatedValue n => let (v, d) := d.getRepeatedValue n; (.repeated v, d)
  | nextNumLiterals => let (n, d) := d.nextNumLiterals; (.count n, d)
  | getLiteralValues n => let (ok, vs, d) := d.getLiteralValues n; (.literals ok vs, d)

def runAll (d : RleBatchDecoder) : List RleCall → List RleOutput
  | [] => []
  | c :: cs => (run d c).1 :: runAll (run d c).2 cs

/-- The `DCHECK`s of `GetRepeatedValue` and `GetLiteralValues`: no more values taken than
the current run has left. -/
def Allowed (d : RleBatchDecoder) : RleCall → Prop
  | getRepeatedValue n => n ≤ d.repeatCount
  | getLiteralValues n => n ≤ d.literalCount
  | _ => True

def AllowedAll : RleBatchDecoder → List RleCall → Prop
  | _, [] => True
  | d, c :: cs => Allowed d c ∧ AllowedAll (run d c).2 cs

/-- What a call returns and leaves, in terms of the values still to come: the calls that
deliver or skip take the next slice, and the count they return is its length. -/
def Spec : RleCall → List Nat → RleOutput → List Nat → Prop
  | getValues k, vals, o, rest => o = .values (min k vals.length) (vals.take k) ∧ rest = vals.drop k
  | getSingleValue, vals, o, rest => o = .single vals.head? ∧ rest = vals.drop 1
  | skipValues k, vals, o, rest => o = .count (min k vals.length) ∧ rest = vals.drop k
  | nextNumRepeats, vals, o, rest =>
    (∃ n v, o = .count n ∧ vals.take n = List.replicate n v) ∧ rest = vals
  | getRepeatedValue n, vals, o, rest =>
    (∃ v, o = .repeated v ∧ vals.take n = List.replicate n v) ∧ rest = vals.drop n
  | nextNumLiterals, vals, o, rest => (∃ n, o = .count n ∧ n ≤ vals.length) ∧ rest = vals
  | getLiteralValues n, vals, o, rest => o = .literals true (vals.take n) ∧ rest = vals.drop n

def Slices : List Nat → List RleCall → List RleOutput → Prop
  | _, [], [] => True
  | vals, c :: cs, o :: os => ∃ rest, Spec c vals o rest ∧ Slices rest cs os
  | _, _, _ => False

variable {w : Nat} {d : RleBatchDecoder} {vals : List Nat}

theorem run_spec (h : Decodes w d vals) (hfit : w * vals.length + 7 < 2 ^ 32) (c : RleCall)
    (hc : Allowed d c) :
    ∃ rest, Spec c vals (run d c).1 rest ∧ Decodes w (run d c).2 rest ∧
      rest.length ≤ vals.length := by
  cases c with
  | getValues k =>
    obtain ⟨d', he, h'⟩ := h.getValues k
    exact ⟨vals.drop k, by simp [run, Spec, he], by simpa [run, he] using h', by simp⟩
  | getSingleValue =>
    obtain ⟨d', he, h'⟩ := h.getSingleValue
    exact ⟨vals.drop 1, by simp [run, Spec, he], by simpa [run, he] using h', by simp⟩
  | skipValues k =>
    obtain ⟨d', he, h'⟩ := h.skipValues hfit k
    exact ⟨vals.drop k, by simp [run, Spec, he], by simpa [run, he] using h', by simp⟩
  | nextNumRepeats =>
    obtain ⟨d', he, h', -⟩ := h.nextNumRepeats
    exact ⟨vals, ⟨⟨_, _, by simp [run, he], h'.take_repeatCount⟩, rfl⟩, by simpa [run, he] using h',
      le_rfl⟩
  | getRepeatedValue n =>
    obtain ⟨d', he, htake, h'⟩ := h.getRepeatedValue hc
    exact ⟨_, ⟨⟨_, by simp [run, he], htake⟩, rfl⟩, by simpa [run, he] using h', by simp⟩
  | nextNumLiterals =>
    obtain ⟨d', he, h', -⟩ := h.nextNumLiterals
    exact ⟨vals, ⟨⟨_, by simp [run, he], h'.literalCount_le⟩, rfl⟩, by simpa [run, he] using h',
      le_rfl⟩
  | getLiteralValues n =>
    obtain ⟨d', he, h'⟩ := h.getLiteralValues hc
    exact ⟨vals.drop n, by simp [run, Spec, he], by simpa [run, he] using h', by simp⟩

theorem runAll_slices (h : Decodes w d vals) (hfit : w * vals.length + 7 < 2 ^ 32)
    (calls : List RleCall) (hcalls : AllowedAll d calls) :
    Slices vals calls (runAll d calls) := by
  induction calls generalizing d vals with
  | nil => trivial
  | cons c cs ih =>
    obtain ⟨rest, hspec, h', hlen⟩ := run_spec h hfit c hcalls.1
    exact ⟨rest, hspec, ih h' (lt_of_le_of_lt (Nat.add_le_add_right
      (Nat.mul_le_mul_left w hlen) 7) hfit) hcalls.2⟩

/-- The decoder over the bytes of well-formed runs whose values take fewer than `2^32` bits,
so that no `SkipBatch` product wraps: whatever the calls, each returns the next slice of the
values the runs stand for. -/
theorem runAll_reset_slices {buffer : List UInt8} {runs : List RleRun}
    (henc : Encodes w buffer runs) (hfit : w * (valuesOf runs).length + 7 < 2 ^ 32)
    (calls : List RleCall) (hcalls : AllowedAll (reset buffer w) calls) :
    Slices (valuesOf runs) calls (runAll (reset buffer w) calls) :=
  runAll_slices (reset_decodes henc) hfit calls hcalls

theorem runAll_reset_slices_mixed :
    Slices (valuesOf [.repeated 5 2, .literal [1, 2, 3, 4, 5, 6, 7, 0]])
      [getValues 3, skipValues 4, getSingleValue, nextNumLiterals, getRepeatedValue 0, getValues 9]
      (runAll (reset (encodeRuns 3 [.repeated 5 2, .literal [1, 2, 3, 4, 5, 6, 7, 0]]) 3)
        [getValues 3, skipValues 4, getSingleValue, nextNumLiterals, getRepeatedValue 0,
          getValues 9]) :=
  runAll_reset_slices (encodes_encodeRuns (by decide)) (by decide) _
    (by simp [AllowedAll, Allowed])

end RleCall

namespace RleBatchDecoder

/-! ### One pass of the loops over a literal run -/

theorem nextNumRepeats_of_closed {d : RleBatchDecoder} (hr : d.repeatCount = 0)
    (hl : d.literalCount = 0) : d.nextNumRepeats = (d.nextCounts.repeatCount, d.nextCounts) := by
  simp [nextNumRepeats, hr, hl]

theorem nextNumRepeats_of_literals {d : RleBatchDecoder} (hr : d.repeatCount = 0)
    (hl : 0 < d.literalCount) : d.nextNumRepeats = (0, d) := by
  simp [nextNumRepeats, hr, Nat.pos_iff_ne_zero.1 hl]

theorem nextNumLiterals_of_pos {d : RleBatchDecoder} (hl : 0 < d.literalCount) :
    d.nextNumLiterals = (d.literalCount, d) := by
  simp [nextNumLiterals, hl]

theorem skipValues_of_unbuffered {d : RleBatchDecoder} (h : d.haveBufferedLiterals = false)
    (k : Nat) : d.skipValues k = skipValuesFrom k 0 d := by
  simp [skipValues, h]

/-- A skip of `k` values from a literal run of `n ≥ k` that `SkipLiteralValues(k)` completes
takes one pass of the loop. -/
theorem skipValuesFrom_literal_pass {d d1 d2 : RleBatchDecoder} {k n : Nat} (hk : 0 < k)
    (hkn : k ≤ n) (hrepeats : d.nextNumRepeats = (0, d1))
    (hliterals : d1.nextNumLiterals = (n, d1)) (hskip : d1.skipLiteralValues k = (true, d2)) :
    skipValuesFrom k 0 d = (k, d2) := by
  have hn : n ≠ 0 := by omega
  have hmin : min n (k - 0) = k := by omega
  rw [skipValuesFrom]
  simp only [hk, if_true, hrepeats, gt_iff_lt, lt_self_iff_false, dite_false, hliterals, hn,
    hmin, hskip]
  rw [skipValuesFrom]
  simp

theorem getValuesFrom_literal_pass {d d1 d2 : RleBatchDecoder} {k n : Nat} {out : List Nat}
    (hk : 0 < k) (hkn : k ≤ n) (hrepeats : d.nextNumRepeats = (0, d1))
    (hliterals : d1.nextNumLiterals = (n, d1)) (hget : d1.getLiteralValues k = (true, out, d2)) :
    getValuesFrom k 0 [] d = (k, out, d2) := by
  have hn : n ≠ 0 := by omega
  have hmin : min n (k - 0) = k := by omega
  rw [getValuesFrom]
  simp only [hk, if_true, hrepeats, gt_iff_lt, lt_self_iff_false, dite_false, hliterals, hn,
    hmin, hget]
  rw [getValuesFrom]
  simp

/-- A literal header announcing at least `32 * j` literals, followed by fewer bytes than
those literals take: `SkipLiteralValues` counts the batches as skipped whatever `SkipBatch`
does, so `SkipValues(32 * j)` reports all of them skipped; and while `bit_width * 32 * j` stays
below `2^32`, `SkipBatch` fails and leaves the reader where it was. -/
theorem skipValues_truncated_literal_run {w groups j : Nat} (hj : 0 < j)
    (hjg : 32 * j ≤ groups * 8) (hmax : groups * 8 ≤ int32Max) {more : List UInt8}
    (hmore : more.length < 4 * w * j) :
    ((reset (uleb128 (groups * 2 + 1) ++ more) w).skipValues (32 * j)).1 = 32 * j ∧
      (w * (32 * j) + 7 < 2 ^ 32 →
        ((reset (uleb128 (groups * 2 + 1) ++ more) w).skipValues (32 * j)).2.bitReader.buffer =
          more) := by
  set d := reset (uleb128 (groups * 2 + 1) ++ more) w
  have hx : groups * 2 + 1 < 2 ^ 32 := by unfold int32Max at hmax; omega
  have hopen : d.nextCounts = { d with bitReader := ⟨more⟩, literalCount := groups * 8 } :=
    nextCounts_literal_header (isHeader_uleb128 hx) hmax rfl
  set d1 := { d with bitReader := ⟨more⟩, literalCount := groups * 8 }
  have hrepeats : d.nextNumRepeats = (0, d1) := by
    rw [nextNumRepeats_of_closed rfl rfl, hopen]
    rfl
  have hliterals : d1.nextNumLiterals = (groups * 8, d1) :=
    nextNumLiterals_of_pos (show 0 < groups * 8 by omega)
  set r := (d1.bitReader.skipBatch d1.bitWidth (32 * j)).getD d1.bitReader
  have hskip : d1.skipLiteralValues (32 * j) =
      (true, { d1 with bitReader := r, literalCount := groups * 8 - 32 * j }) := by
    have hnum : min d1.literalCount (32 * j / 32 * 32) = 32 * j := by simp [d1]; omega
    simp only [skipLiteralValues, hnum]
    simp [hj]
    exact ⟨rfl, rfl⟩
  -- `SkipBatch` may fail here; the skip is counted in full all the same
  have hskipValues : d.skipValues (32 * j) =
      (32 * j, { d1 with bitReader := r, literalCount := groups * 8 - 32 * j }) := by
    rw [skipValues_of_unbuffered rfl]
    exact skipValuesFrom_literal_pass (by omega) hjg hrepeats hliterals hskip
  refine ⟨by rw [hskipValues], fun hfit => ?_⟩
  have hbytes : more.length < (BatchedBitReader.roundUpNumBytes (w * (32 * j)).toUInt32).toNat := by
    have hwj : w * (32 * j) = 8 * (4 * w * j) := by ring
    rw [BatchedBitReader.roundUpNumBytes_of_lt hfit]
    omega
  rw [hskipValues]
  show ((BatchedBitReader.skipBatch ⟨more⟩ w (32 * j)).getD ⟨more⟩).buffer = more
  simp only [BatchedBitReader.skipBatch, gt_iff_lt, if_pos hbytes, Option.getD_none]

theorem skipValues_truncated_literal_run_empty :
    ((reset (uleb128 (4 * 2 + 1) ++ []) 1).skipValues (32 * 1)).1 = 32 * 1 ∧
      ((reset (uleb128 (4 * 2 + 1) ++ []) 1).skipValues (32 * 1)).2.bitReader.buffer = [] := by
  have h := @skipValues_truncated_literal_run 1 4 1 (by decide) (by decide) (by decide) []
    (by decide)
  exact ⟨h.1, h.2 (by decide)⟩

/-- `SkipBatch`'s byte count wraps once `bit_width * num_values_to_skip` reaches `2^32`. A skip
of `m` literals of a well-formed run, with `2^32 ∣ w * m`, moves the reader by no byte while the
literal count drops by `m`: `SkipValues(m)` reports `m` values skipped, and the `GetValues(1)`
after it returns the run's first value, not the one `m` values in. -/
theorem getValues_after_skipValues_wraps {w m : Nat} {values : List Nat}
    (hwf : (literal values).WellFormed w) (hm : 32 ∣ m) (hpos : 0 < m) (hlt : m < values.length)
    (hwrap : 2 ^ 32 ∣ w * m) (rest : List UInt8) :
    ((reset ((literal values).encode w ++ rest) w).skipValues m).1 = m ∧
      (((reset ((literal values).encode w ++ rest) w).skipValues m).2.getValues 1).2.1 =
        values.take 1 := by
  obtain ⟨-, h8, hmax, hvs⟩ := hwf
  set d := reset ((literal values).encode w ++ rest) w
  have hx : values.length / 8 * 2 + 1 < 2 ^ 32 := by unfold int32Max at hmax; omega
  have hopen : d.nextCounts =
      { d with bitReader := ⟨pack w values ++ rest⟩, literalCount := values.length } :=
    nextCounts_literal (isHeader_uleb128 hx) ⟨by omega, h8, hmax, hvs⟩ (by simp [d, reset, encode])
  set d1 := { d with bitReader := ⟨pack w values ++ rest⟩, literalCount := values.length }
  have hrepeats : d.nextNumRepeats = (0, d1) := by
    rw [nextNumRepeats_of_closed rfl rfl, hopen]
    rfl
  have hliterals : d1.nextNumLiterals = (values.length, d1) :=
    nextNumLiterals_of_pos (show 0 < values.length by omega)
  -- the wrapped `SkipBatch` succeeds without moving the reader
  set d2 := { d1 with literalCount := values.length - m }
  have hskip : d1.skipLiteralValues m = (true, d2) := by
    have hnum : min d1.literalCount (m / 32 * 32) = m := by
      simp only [d1, Nat.div_mul_cancel hm]
      omega
    have hw1 : d1.bitWidth = w := rfl
    simp only [skipLiteralValues, hnum, gt_iff_lt, hpos, if_true, hw1,
      BatchedBitReader.skipBatch_of_wrap _ hwrap, Option.getD_some, Nat.sub_self,
      lt_self_iff_false, if_false]
    rfl
  have hskipValues : d.skipValues m = (m, d2) := by
    rw [skipValues_of_unbuffered rfl]
    exact skipValuesFrom_literal_pass hpos hlt.le hrepeats hliterals hskip
  -- `GetValues(1)` then fills the literal buffer from the run's first value
  have hleft : 0 < d2.literalCount := by simp [d2]; omega
  set k := min literalBufferLen (values.length - m)
  have hk8 : 8 ∣ k := by
    have h32 : 8 ∣ literalBufferLen := ⟨4, rfl⟩
    show 8 ∣ min literalBufferLen (values.length - m)
    rcases min_choice literalBufferLen (values.length - m) with hk | hk <;> rw [hk]
    · exact h32
    · exact Nat.dvd_sub h8 (Nat.dvd_trans ⟨4, rfl⟩ hm)
  have hkle : k ≤ values.length := le_trans (min_le_right _ _) (Nat.sub_le _ _)
  have hk1 : 1 ≤ k := by simp only [k, literalBufferLen]; omega
  have hfill : d2.fillLiteralBuffer = (true,
      { d2 with
        bitReader := ⟨pack w (values.drop k) ++ rest⟩
        literalBuffer := values.take k
        literalBufferPos := 0 }) := by
    have hunpack : d2.bitReader.unpackBatch d2.bitWidth (min literalBufferLen d2.literalCount) =
        (values.take k, ⟨pack w (values.drop k) ++ rest⟩) :=
      BatchedBitReader.unpackBatch_pack_append hvs h8 hk8 hkle rest
    have hlen : (values.take k).length = k := List.length_take_of_le hkle
    simp only [fillLiteralBuffer, hunpack, hlen]
    exact if_neg (lt_irrefl k)
  have hget : d2.getLiteralValues 1 = (true, values.take 1,
      { d2 with
        bitReader := ⟨pack w (values.drop k) ++ rest⟩
        literalBuffer := values.take k
        literalBufferPos := 1
        literalCount := values.length - m - 1 }) := by
    have hbuffered : d2.haveBufferedLiterals = false := rfl
    simp only [getLiteralValues, hbuffered, Bool.false_eq_true, if_false, List.length_nil,
      Nat.sub_zero, Nat.reduceDiv, zero_mul, min_zero, gt_iff_lt, lt_self_iff_false, Bool.not_true,
      Nat.lt_add_one, if_true, hfill]
    simp [outputBufferedLiterals, List.take_take, hk1, d2]
    omega
  refine ⟨by rw [hskipValues], ?_⟩
  rw [hskipValues]
  have hgetValues := getValuesFrom_literal_pass Nat.one_pos hleft (nextNumRepeats_of_literals rfl hleft)
    (nextNumLiterals_of_pos hleft) hget
  unfold getValues
  rw [hgetValues]

theorem getValues_after_skipValues_wraps_64 :
    ((reset ((literal (1 :: List.replicate (2 ^ 26 + 31) 0)).encode 64 ++ []) 64).skipValues
        (2 ^ 26)).1 = 2 ^ 26 ∧
      (((reset ((literal (1 :: List.replicate (2 ^ 26 + 31) 0)).encode 64 ++ []) 64).skipValues
        (2 ^ 26)).2.getValues 1).2.1 = [1] := by
  have hlen : (1 :: List.replicate (2 ^ 26 + 31) 0).length = 2 ^ 26 + 32 := by
    rw [List.length_cons, List.length_replicate]
  have hwf : (literal (1 :: List.replicate (2 ^ 26 + 31) 0)).WellFormed 64 := by
    refine ⟨by rw [hlen]; norm_num, by rw [hlen]; norm_num, by rw [hlen]; unfold int32Max; norm_num,
      fun v hv => ?_⟩
    rcases List.mem_cons.1 hv with rfl | hv
    · norm_num
    · rw [List.eq_of_mem_replicate hv]
      norm_num
  have h := getValues_after_skipValues_wraps hwf (m := 2 ^ 26) (by norm_num) (by norm_num)
    (by rw [hlen]; norm_num) (by norm_num) []
  exact ⟨h.1, h.2⟩

end RleBatchDecoder

/-! ### A round trip that loses a value -/

namespace RleEncoder

/-- At bit width 0 into a buffer of `MinBufferSize(0)` bytes, `2^31` zeros are all accepted by
`Put`. The last one ends the run of `INT32_MAX` zeros, whose flush fills the buffer; the value
is buffered all the same, and `Flush` has no room left for its run. The decoder over the bytes
written finds `2^31 - 1` values. -/
theorem putAll_flush_loses_last_value :
    minBufferSize 0 = 5 ∧
      ((create 5 0).putAll (List.replicate (2 ^ 31) 0)).1 = List.replicate (2 ^ 31) true ∧
      ((create 5 0).putAll (List.replicate (2 ^ 31) 0)).2.flush.1 = 5 ∧
      ((RleBatchDecoder.reset
        ((create 5 0).putAll (List.replicate (2 ^ 31) 0)).2.flush.2.bitWriter.bytes 0).getValues
          (2 ^ 31)).1 = 2 ^ 31 - 1 := by
  set eMax : RleEncoder := { create 5 0 with repeatCount := int32Max } with heMax
  have hgroup : (create 5 0).putAll (List.replicate 8 0) =
      (List.replicate 8 true, { create 5 0 with repeatCount := 8 }) := rfl
  have hgrow : ({ create 5 0 with repeatCount := 8 } : RleEncoder).putAll
      (List.replicate (int32Max - 8) 0) = (List.replicate (int32Max - 8) true, eMax) :=
    putAll_replicate_of_repeating rfl rfl le_rfl _ (by decide)
  have hsplit : List.replicate (2 ^ 31) 0 =
      List.replicate 8 0 ++ List.replicate (int32Max - 8) 0 ++ [0] := by
    simp only [List.replicate_append_replicate, ← List.replicate_succ']
    congr 1
  have hlast : eMax.putAll [0] = ([true], (eMax.put 0).2) := by
    have hput : (eMax.put 0).1 = true := by simp [eMax, put, create, flushRepeatedRun, int32Max]
    simp only [putAll, ← hput]
  have hflush : (eMax.put 0).2.flush.1 = 5 := by
    simp [eMax, put, create, flushRepeatedRun, int32Max, flush, BitWriter.putUleb128,
      BitWriter.putAligned, BitWriter.getNextBytePtr, BitWriter.align, BitWriter.bytesWritten,
      BitWriter.create, checkBufferFull, minBufferSize, bufferValue, BitWriter.writeAt,
      BatchedBitReader.maxVlqByteLen, maxValuesPerLiteralRun]
  have hbytes : (eMax.put 0).2.flush.2.bitWriter.bytes = encodeRuns 0 [.repeated int32Max 0] := by
    simp [eMax, put, create, flushRepeatedRun, int32Max, flush, BitWriter.putUleb128,
      BitWriter.putAligned, BitWriter.getNextBytePtr, BitWriter.align, BitWriter.bytesWritten,
      BitWriter.create, checkBufferFull, minBufferSize, bufferValue, BitWriter.writeAt,
      BatchedBitReader.maxVlqByteLen, maxValuesPerLiteralRun, BitWriter.bytes, encode, uleb128,
      toBytes]
  obtain ⟨d', hget, -⟩ := (RleBatchDecoder.reset_decodes
    (encodes_encodeRuns (by decide : ∀ r ∈ [RleRun.repeated int32Max 0], r.WellFormed 0))).getValues
      (2 ^ 31)
  rw [hsplit, putAll_append, putAll_append, hgroup, hgrow]
  dsimp only
  rw [hlast]
  dsimp only
  rw [hflush, hbytes, hget]
  refine ⟨by decide, ?_, rfl, ?_⟩
  · rw [List.replicate_append_replicate, ← List.replicate_succ']
    congr 1
  · simp only [valuesOf_cons, values_repeated, valuesOf_nil, List.append_nil,
      List.length_replicate]
    decide

end RleEncoder

end Impala
