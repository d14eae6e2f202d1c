import Mathlib
import Impala.Util.RleDecoding

/-!
The RLE encoder (util/rle-encoding.h, `RleEncoder`) against the decoder: with a buffer large
enough for what it writes, every `Put` is accepted, and the bytes `Flush` leaves are the
encoding of well-formed runs whose values are the values put, then the zeros that pad the
last literal group; the decoder over them returns the values put.

The writer is taken as the byte string it holds (`BitWriter.ofList`), with one equation per
primitive the encoder calls. The encoder between calls is described by the runs it has
written, the groups of the literal run it has open, and how it holds the values past them:
a repeated run it is counting, or up to seven buffered values whose last `repeat_count_`
equal `current_value_`.
-/

set_option autoImplicit false

namespace Impala

open LittleEndian RleRun

namespace BitWriter

def ofList (maxBytes : Nat) (bs : List UInt8) : BitWriter := ⟨maxBytes, ofBytes bs, 8 * bs.length⟩

theorem ofList_bytesWritten (maxBytes : Nat) (bs : List UInt8) :
    (ofList maxBytes bs).bytesWritten = bs.length := by
  simp only [ofList, bytesWritten]
  omega

theorem ofList_bytes (maxBytes : Nat) (bs : List UInt8) : (ofList maxBytes bs).bytes = bs := by
  rw [bytes, ofList_bytesWritten]
  exact toBytes_ofBytes bs

theorem create_eq_ofList (bufferLen : Nat) : create bufferLen = ofList bufferLen [] := rfl

theorem ofBytes_append_eq_or (bs l : List UInt8) :
    ofBytes (bs ++ l) = ofBytes bs ||| ofBytes l <<< (8 * bs.length) := by
  have hlt : ofBytes bs < 2 ^ (8 * bs.length) := by
    rw [pow_mul]
    exact ofBytes_lt bs
  have h := ofBytes_toBytes_append_of_lt hlt l
  rwa [toBytes_ofBytes] at h

variable {m : Nat} {bs : List UInt8}

theorem putUleb128_ofList (v : Nat) (hfit : bs.length + (uleb128 v).length ≤ m) :
    (ofList m bs).putUleb128 v = (true, ofList m (bs ++ uleb128 v)) := by
  rw [putUleb128_of_fits v (by simp only [ofList]; omega) (by simp only [ofList]; omega)]
  simp only [ofList, ofBytes_append_eq_or, List.length_append, Nat.mul_add]

theorem putAligned_ofList (val n : Nat) (hfit : bs.length + n ≤ m) :
    (ofList m bs).putAligned val n = (true, ofList m (bs ++ toBytes val n)) := by
  rw [putAligned_of_fits (by simp only [ofList]; omega) (by simp only [ofList]; omega)]
  have hmod : val % 2 ^ (8 * n) = ofBytes (toBytes val n) := by
    rw [ofBytes_toBytes, pow_mul]
    norm_num
  simp only [ofList, hmod, ofBytes_append_eq_or, List.length_append, length_toBytes, Nat.mul_add]

theorem getNextBytePtr_ofList (hfit : bs.length + 1 ≤ m) :
    (ofList m bs).getNextBytePtr 1 = (some bs.length, ofList m (bs ++ [0])) := by
  rw [getNextBytePtr_of_fits (by simp only [ofList]; omega) (by simp only [ofList]; omega)]
  simp [ofList, ofBytes_append, Nat.mul_add]

theorem writeAt_ofList (pre post : List UInt8) {val : Nat} (hval : val < 256) :
    (ofList m (pre ++ 0 :: post)).writeAt pre.length val =
      ofList m (pre ++ UInt8.ofNat val :: post) := by
  simp only [ofList, writeAt, List.length_append, List.length_cons, BitWriter.mk.injEq, true_and,
    and_true]
  rw [ofBytes_append_eq_or, ofBytes_append_eq_or, Nat.or_assoc, ← Nat.shiftLeft_or_distrib]
  congr 2
  have hlow : val < 2 ^ 8 := by omega
  have hshift : 256 * ofBytes post = ofBytes post <<< 8 := by
    rw [Nat.shiftLeft_eq]
    ring
  rw [ofBytes_cons, ofBytes_cons, UInt8.toNat_ofNat', Nat.mod_eq_of_lt hval, UInt8.toNat_zero,
    zero_add, hshift, ← Nat.shiftLeft_add_eq_or_of_lt hlow, add_comm]

theorem foldl_putValue {numBits : Nat} (vs : List Nat) (hvs : ∀ v ∈ vs, v < 2 ^ numBits) :
    ∀ wr : BitWriter, wr.bits < 2 ^ wr.offset → wr.offset + numBits * vs.length ≤ wr.maxBytes * 8 →
      vs.foldl (fun bw v => (bw.putValue v numBits).2) wr =
        { wr with
          bits := wr.bits + 2 ^ wr.offset * Nat.ofDigits (2 ^ numBits) vs
          offset := wr.offset + numBits * vs.length } := by
  induction vs with
  | nil => intro wr _ _; simp
  | cons v vs ih =>
    intro wr hclean hfit
    have hv : v < 2 ^ numBits := hvs v List.mem_cons_self
    rw [List.length_cons, Nat.mul_succ] at hfit
    have hput : (wr.putValue v numBits).2 =
        { wr with bits := wr.bits + 2 ^ wr.offset * v, offset := wr.offset + numBits } := by
      rw [putValue, if_neg (by omega)]
      simp only [BitWriter.mk.injEq, and_true, true_and]
      rw [Nat.or_comm, ← Nat.shiftLeft_add_eq_or_of_lt hclean, Nat.shiftLeft_eq, mul_comm,
        add_comm]
    have hclean' : wr.bits + 2 ^ wr.offset * v < 2 ^ (wr.offset + numBits) := by
      rw [pow_add]
      calc wr.bits + 2 ^ wr.offset * v < 2 ^ wr.offset * (v + 1) := by rw [Nat.mul_succ]; omega
        _ ≤ 2 ^ wr.offset * 2 ^ numBits := Nat.mul_le_mul_left _ hv
    rw [List.foldl_cons, hput, ih (fun u hu => hvs u (List.mem_cons_of_mem v hu)) _ hclean'
      (by simp only; omega)]
    simp only [BitWriter.mk.injEq, true_and]
    constructor
    · rw [Nat.ofDigits_cons, pow_add]
      ring
    · rw [List.length_cons, Nat.mul_succ]
      omega

theorem foldl_putValue_ofList {numBits : Nat} {vs : List Nat} (hvs : ∀ v ∈ vs, v < 2 ^ numBits)
    (h8 : 8 ∣ numBits * vs.length) (hfit : bs.length + numBits * vs.length / 8 ≤ m) :
    vs.foldl (fun bw v => (bw.putValue v numBits).2) (ofList m bs) =
      ofList m (bs ++ pack numBits vs) := by
  have hclean : ofBytes bs < 2 ^ (8 * bs.length) := by
    rw [pow_mul]
    exact ofBytes_lt bs
  rw [foldl_putValue vs hvs _ hclean (by simp only [ofList]; omega)]
  simp only [ofList, BitWriter.mk.injEq, true_and, ofBytes_append, ofBytes_pack hvs h8,
    List.length_append, length_pack]
  constructor
  · rw [pow_mul]
    norm_num
  · omega

end BitWriter

namespace RleEncoder

/-! ### The encoder's primitives on a writer that holds bytes -/

def openRun (w : Nat) (lit : List Nat) : List UInt8 := if lit = [] then [] else 0 :: pack w lit

theorem minBufferSize_ge (w : Nat) : 5 + (w + 7) / 8 ≤ minBufferSize w ∧ 1 + w ≤ minBufferSize w := by
  simp only [minBufferSize, BatchedBitReader.maxVlqByteLen, maxValuesPerLiteralRun,
    Nat.reduceShiftLeft]
  omega

theorem length_uleb128_le_five {x : Nat} (hx : x < 2 ^ 32) : (uleb128 x).length ≤ 5 :=
  length_uleb128_le (by norm_num) (by norm_num; omega)

theorem encode_literal {w : Nat} {values : List Nat} (hshort : values.length ≤ 504) :
    (literal values).encode w = UInt8.ofNat (values.length / 8 * 2 + 1) :: pack w values := by
  rw [encode, uleb128, if_pos (by omega)]
  rfl

theorem encode_repeated_length_le (w : Nat) {count : Nat} (value : Nat) (hc : count ≤ int32Max) :
    ((repeated count value).encode w).length ≤ 5 + (w + 7) / 8 := by
  have hu := length_uleb128_le_five (x := count * 2) (by unfold int32Max at hc; omega)
  simp only [encode, List.length_append, length_toBytes]
  omega

theorem cost_encode {w : Nat} {r : RleRun} (hwf : r.WellFormed w) (hlong : 8 ≤ r.values.length) :
    8 * (r.encode w).length ≤ (w + 6) * r.values.length := by
  cases r with
  | repeated count value =>
    have hlen := encode_repeated_length_le w value hwf.2.1
    simp only [values_repeated, List.length_replicate] at hlong ⊢
    have : (w + 6) * 8 ≤ (w + 6) * count := Nat.mul_le_mul_left _ hlong
    omega
  | literal values =>
    obtain ⟨-, h8, hmax, -⟩ := hwf
    have hu := length_uleb128_le_five (x := values.length / 8 * 2 + 1)
      (by unfold int32Max at hmax; omega)
    simp only [values_literal] at hlong ⊢
    simp only [encode, List.length_append, length_pack]
    have h8' : 8 ∣ w * values.length := Dvd.dvd.mul_left h8 w
    have : 8 * (w * values.length / 8) = w * values.length := Nat.mul_div_cancel' h8'
    rw [Nat.add_mul]
    omega

theorem cost_openRun (w : Nat) {lit : List Nat} (h8 : 8 ∣ lit.length) :
    8 * (openRun w lit).length ≤ (w + 6) * lit.length := by
  unfold openRun
  split_ifs with hlit
  · simp
  · have hpos : 0 < lit.length := List.length_pos_iff.2 hlit
    have h8' : 8 ∣ w * lit.length := Dvd.dvd.mul_left h8 w
    have : 8 * (w * lit.length / 8) = w * lit.length := Nat.mul_div_cancel' h8'
    simp only [List.length_cons, length_pack, Nat.add_mul]
    omega

theorem cost_le {w : Nat} {done : List RleRun} {lit : List Nat}
    (hwf : ∀ r ∈ done, r.WellFormed w) (hlong : ∀ r ∈ done, 8 ≤ r.values.length)
    (h8 : 8 ∣ lit.length) :
    8 * (encodeRuns w done ++ openRun w lit).length ≤ (w + 6) * (valuesOf done ++ lit).length := by
  induction done with
  | nil => simpa using cost_openRun w h8
  | cons r done ih =>
    have hr := cost_encode (hwf r List.mem_cons_self) (hlong r List.mem_cons_self)
    have hrest := ih (fun r' h => hwf r' (List.mem_cons_of_mem r h))
      (fun r' h => hlong r' (List.mem_cons_of_mem r h))
    simp only [encodeRuns_cons, valuesOf_cons, List.length_append, Nat.mul_add] at hr hrest ⊢
    omega

variable {w m : Nat} {e : RleEncoder} {bs : List UInt8}

theorem flushRepeatedRun_ofList (hwriter : e.bitWriter = BitWriter.ofList m bs)
    (hw : e.bitWidth = w) (hcount : e.repeatCount ≤ int32Max)
    (hroom : bs.length + ((repeated e.repeatCount e.currentValue).encode w).length ≤ m) :
    e.flushRepeatedRun = checkBufferFull { e with
      bitWriter := BitWriter.ofList m (bs ++ (repeated e.repeatCount e.currentValue).encode w)
      bufferedValues := []
      repeatCount := 0 } := by
  have hmod : e.repeatCount * 2 % 2 ^ 32 = e.repeatCount * 2 :=
    Nat.mod_eq_of_lt (by unfold int32Max at hcount; omega)
  simp only [encode, List.length_append, length_toBytes] at hroom
  unfold flushRepeatedRun
  dsimp only
  rw [hmod, hwriter, BitWriter.putUleb128_ofList _ (by omega)]
  rw [BitWriter.putAligned_ofList _ _ (by simp only [List.length_append]; omega), hw]
  simp only [encode, List.append_assoc]


theorem checkBufferFull_bitWriter (e : RleEncoder) : e.checkBufferFull.bitWriter = e.bitWriter := by
  unfold checkBufferFull
  split_ifs <;> rfl

theorem flushLiteralRun_ofList {lit : List Nat} (update : Bool)
    (hwriter : e.bitWriter = BitWriter.ofList m (bs ++ openRun w lit))
    (hind : e.literalIndicatorByte = if lit = [] then none else some bs.length)
    (hw : e.bitWidth = w)
    (hlit : ∀ v ∈ lit, v < 2 ^ w) (hbuf : ∀ v ∈ e.bufferedValues, v < 2 ^ w)
    (h8lit : 8 ∣ lit.length) (h8buf : 8 ∣ e.bufferedValues.length)
    (hroom : bs.length + 1 + w * (lit ++ e.bufferedValues).length / 8 ≤ m) :
    e.flushLiteralRun update =
      if update then
        checkBufferFull { e with
          bitWriter := BitWriter.ofList m (bs ++
            UInt8.ofNat ((e.literalCount / 8 * 2 + 1) % 256) :: pack w (lit ++ e.bufferedValues))
          literalIndicatorByte := none
          bufferedValues := []
          literalCount := 0 }
      else { e with
        bitWriter := BitWriter.ofList m (bs ++ 0 :: pack w (lit ++ e.bufferedValues))
        literalIndicatorByte := some bs.length
        bufferedValues := [] } := by
  have hlit8 : 8 ∣ w * lit.length := Dvd.dvd.mul_left h8lit w
  have hbuf8 : 8 ∣ w * e.bufferedValues.length := Dvd.dvd.mul_left h8buf w
  simp only [List.length_append, Nat.mul_add] at hroom
  rw [pack_append hlit hbuf hlit8 hbuf8]
  unfold flushLiteralRun
  by_cases hlit0 : lit = []
  · subst hlit0
    rw [if_pos rfl] at hind
    simp only [openRun, if_pos, List.append_nil] at hwriter
    simp only [List.length_nil, Nat.mul_zero, zero_add] at hroom
    have hres : (BitWriter.ofList m bs).getNextBytePtr 1 =
        (some bs.length, BitWriter.ofList m (bs ++ [0])) :=
      BitWriter.getNextBytePtr_ofList (by omega)
    have hdata : e.bufferedValues.foldl (fun bw v => (bw.putValue v w).2)
        (BitWriter.ofList m (bs ++ [0])) = BitWriter.ofList m (bs ++ 0 :: pack w e.bufferedValues) := by
      rw [BitWriter.foldl_putValue_ofList hbuf hbuf8 (by simp; omega)]
      simp
    simp only [hind, hwriter, hw, hres, hdata, pack_nil, List.nil_append]
    cases update
    · simp
    · simp only [if_true]
      rw [BitWriter.writeAt_ofList _ _ (Nat.mod_lt _ (by norm_num))]
  · rw [if_neg hlit0] at hind
    simp only [openRun, if_neg hlit0] at hwriter
    have hdata : e.bufferedValues.foldl (fun bw v => (bw.putValue v w).2)
        (BitWriter.ofList m (bs ++ 0 :: pack w lit)) =
          BitWriter.ofList m (bs ++ 0 :: (pack w lit ++ pack w e.bufferedValues)) := by
      rw [BitWriter.foldl_putValue_ofList hbuf hbuf8 (by simp; omega)]
      simp
    simp only [hind, hwriter, hw, hdata]
    cases update
    · simp
    · simp only [if_true]
      rw [BitWriter.writeAt_ofList _ _ (Nat.mod_lt _ (by norm_num))]


/-- The encoder's fields over a buffer of `m` bytes, whatever it holds back: `done` are the runs
written and `lit` the groups of the literal run left open. -/
structure Core (w m : Nat) (e : RleEncoder) (done : List RleRun) (lit : List Nat) : Prop where
  bitWidth : e.bitWidth = w
  notFull : e.bufferFull = false
  maxRun : e.maxRunByteSize = minBufferSize w
  writer : e.bitWriter = BitWriter.ofList m (encodeRuns w done ++ openRun w lit)
  indicator : e.literalIndicatorByte = if lit = [] then none else some (encodeRuns w done).length
  literalCount : e.literalCount = lit.length
  groups : 8 ∣ lit.length
  short : lit.length < 504
  lit_lt : ∀ v ∈ lit, v < 2 ^ w
  buffered_lt : ∀ v ∈ e.bufferedValues, v < 2 ^ w
  current_lt : e.currentValue < 2 ^ w
  done_wf : ∀ r ∈ done, r.WellFormed w
  done_long : ∀ r ∈ done, 8 ≤ r.values.length

/-- How the encoder holds the values `vs` taken past the runs it has written: a repeated run it
is counting, with nothing buffered, or the open literal run and fewer than eight buffered
values, ending in `repeat_count_` copies of `current_value_`. -/
inductive Pending (e : RleEncoder) (done : List RleRun) (lit : List Nat) (vs : List Nat) : Prop
  | repeating : 8 ≤ e.repeatCount → e.repeatCount ≤ int32Max → e.bufferedValues = [] → lit = [] →
      vs = valuesOf done ++ List.replicate e.repeatCount e.currentValue → Pending e done lit vs
  | buffering (pre : List Nat) : e.bufferedValues.length < 8 →
      e.bufferedValues = pre ++ List.replicate e.repeatCount e.currentValue →
      vs = valuesOf done ++ lit ++ e.bufferedValues → Pending e done lit vs

def Inv (w m : Nat) (e : RleEncoder) (vs : List Nat) : Prop :=
  ∃ done lit, Core w m e done lit ∧ Pending e done lit vs

theorem room_of_cost {done : List RleRun} {lit : List Nat} {n : Nat}
    (hwf : ∀ r ∈ done, r.WellFormed w) (hlong : ∀ r ∈ done, 8 ≤ r.values.length)
    (h8 : 8 ∣ lit.length) (hn : (valuesOf done ++ lit).length ≤ n)
    (hroom : (w + 6) * n / 8 + minBufferSize w ≤ m) :
    (encodeRuns w done ++ openRun w lit).length + minBufferSize w ≤ m := by
  have hcost := cost_le hwf hlong h8
  have hmono : (w + 6) * (valuesOf done ++ lit).length ≤ (w + 6) * n := Nat.mul_le_mul_left _ hn
  omega

theorem room_of_cost_closed {done : List RleRun} {n : Nat}
    (hwf : ∀ r ∈ done, r.WellFormed w) (hlong : ∀ r ∈ done, 8 ≤ r.values.length)
    (hn : (valuesOf done).length ≤ n) (hroom : (w + 6) * n / 8 + minBufferSize w ≤ m) :
    (encodeRuns w done).length + minBufferSize w ≤ m := by
  have h8 : 8 ∣ ([] : List Nat).length := Nat.dvd_zero 8
  have h := room_of_cost hwf hlong h8 (by simpa using hn) hroom
  simpa [openRun] using h

theorem init_inv (w m : Nat) : Inv w m (create m w) [] :=
  ⟨[], [], ⟨rfl, rfl, rfl, by simp [create, openRun, BitWriter.create_eq_ofList], by simp [create],
    rfl, by simp, by simp, by simp, by simp [create], by simp [create],
    by simp, by simp⟩, .buffering [] (by simp [create]) (by simp [create]) (by simp [create])⟩

variable {done : List RleRun} {lit : List Nat}

theorem encodeRuns_append_literal {L : List Nat} (hshort : L.length ≤ 504) :
    encodeRuns w done ++ UInt8.ofNat ((L.length / 8 * 2 + 1) % 256) :: pack w L =
      encodeRuns w (done ++ [literal L]) := by
  rw [Nat.mod_eq_of_lt (by omega)]
  simp [encodeRuns, encode_literal hshort]

theorem checkBufferFull_of_le
    (h : e.bitWriter.bytesWritten + e.maxRunByteSize ≤ e.bitWriter.maxBytes) :
    e.checkBufferFull = e :=
  if_neg (by omega)

theorem room_ofList {bs : List UInt8} (hwriter : e.bitWriter = BitWriter.ofList m bs)
    (hmax : e.maxRunByteSize = minBufferSize w) (h : bs.length + minBufferSize w ≤ m) :
    e.bitWriter.bytesWritten + e.maxRunByteSize ≤ e.bitWriter.maxBytes := by
  rw [hwriter, hmax, BitWriter.ofList_bytesWritten]
  exact h

theorem length_openRun {L : List Nat} (hne : L ≠ []) :
    (openRun w L).length = 1 + w * L.length / 8 := by
  simp [openRun, hne, Nat.add_comm]

theorem Core.closed (hcore : Core w m e done lit) {e' : RleEncoder} {r : RleRun}
    (hwidth : e'.bitWidth = e.bitWidth) (hfull : e'.bufferFull = e.bufferFull)
    (hmax : e'.maxRunByteSize = e.maxRunByteSize) (hcur : e'.currentValue < 2 ^ w)
    (hwriter : e'.bitWriter = BitWriter.ofList m (encodeRuns w (done ++ [r])))
    (hbuf : e'.bufferedValues = []) (hcount : e'.literalCount = 0)
    (hind : e'.literalIndicatorByte = none) (hwf : r.WellFormed w) (hlong : 8 ≤ r.values.length) :
    Core w m e' (done ++ [r]) [] where
  bitWidth := hwidth.trans hcore.bitWidth
  notFull := hfull.trans hcore.notFull
  maxRun := hmax.trans hcore.maxRun
  writer := by simp [hwriter, openRun]
  indicator := by simp [hind]
  literalCount := hcount
  groups := by simp
  short := by simp
  lit_lt := by simp
  buffered_lt := by simp [hbuf]
  current_lt := hcur
  done_wf r' hr' := by
    rcases List.mem_append.1 hr' with hr' | hr'
    · exact hcore.done_wf r' hr'
    · rw [List.mem_singleton.1 hr']
      exact hwf
  done_long r' hr' := by
    rcases List.mem_append.1 hr' with hr' | hr'
    · exact hcore.done_long r' hr'
    · rw [List.mem_singleton.1 hr']
      exact hlong

theorem Core.opened (hcore : Core w m e done lit) {e' : RleEncoder} {g : List Nat}
    (hwidth : e'.bitWidth = e.bitWidth) (hfull : e'.bufferFull = e.bufferFull)
    (hmax : e'.maxRunByteSize = e.maxRunByteSize) (hcur : e'.currentValue < 2 ^ w)
    (hwriter : e'.bitWriter = BitWriter.ofList m (encodeRuns w done ++ 0 :: pack w (lit ++ g)))
    (hbuf : e'.bufferedValues = []) (hcount : e'.literalCount = (lit ++ g).length)
    (hind : e'.literalIndicatorByte = some (encodeRuns w done).length) (hne : g ≠ [])
    (hg : ∀ u ∈ g, u < 2 ^ w) (h8 : 8 ∣ g.length) (hshort : (lit ++ g).length < 504) :
    Core w m e' done (lit ++ g) where
  bitWidth := hwidth.trans hcore.bitWidth
  notFull := hfull.trans hcore.notFull
  maxRun := hmax.trans hcore.maxRun
  writer := by simp [hwriter, openRun, hne]
  indicator := by simp [hind, hne]
  literalCount := hcount
  groups := by
    rw [List.length_append]
    exact Nat.dvd_add hcore.groups h8
  short := hshort
  lit_lt u hu := by
    rcases List.mem_append.1 hu with hu | hu
    exacts [hcore.lit_lt u hu, hg u hu]
  buffered_lt := by simp [hbuf]
  current_lt := hcur
  done_wf := hcore.done_wf
  done_long := hcore.done_long

theorem Core.room_open (hcore : Core w m e done lit) {g : List Nat} (hne : lit ++ g ≠ [])
    (h8 : 8 ∣ g.length) {n : Nat} (hn : (valuesOf done ++ lit ++ g).length ≤ n)
    (hroom : (w + 6) * n / 8 + minBufferSize w ≤ m) :
    (encodeRuns w done).length + (1 + w * (lit ++ g).length / 8) + minBufferSize w ≤ m := by
  have h8' : 8 ∣ (lit ++ g).length := by
    rw [List.length_append]
    exact Nat.dvd_add hcore.groups h8
  have h := room_of_cost hcore.done_wf hcore.done_long h8' (by simpa using hn) hroom
  rwa [List.length_append, length_openRun hne] at h

theorem Core.bufferValue_inv (hcore : Core w m e done lit) {v : Nat} (hv : v < 2 ^ w)
    (pre : List Nat) (hlen : e.bufferedValues.length < 8)
    (hsuffix : e.bufferedValues ++ [v] = pre ++ List.replicate e.repeatCount e.currentValue)
    (hroom : (w + 6) * (valuesOf done ++ lit ++ e.bufferedValues ++ [v]).length / 8 +
      minBufferSize w ≤ m) :
    Inv w m (e.bufferValue v) (valuesOf done ++ lit ++ e.bufferedValues ++ [v]) := by
  have hbuf : ∀ u ∈ e.bufferedValues ++ [v], u < 2 ^ w := by
    intro u hu
    rcases List.mem_append.1 hu with hu | hu
    · exact hcore.buffered_lt u hu
    · rw [List.mem_singleton.1 hu]
      exact hv
  have hlens := congrArg List.length hsuffix
  simp only [List.length_append, List.length_singleton, List.length_replicate] at hlens
  have hshort := hcore.short
  unfold RleEncoder.bufferValue
  dsimp only
  split_ifs with hfull
  · simp only [List.length_append, List.length_singleton] at hfull
    unfold flushBufferedValues
    dsimp only
    split_ifs with hrep hcount hclose
    · have hlit : lit ≠ [] := by
        intro h
        rw [hcore.literalCount, h] at hcount
        exact hcount rfl
      have hpre : pre = [] := List.eq_nil_of_length_eq_zero (by omega)
      have hroom' := hcore.room_open (g := []) (by simpa using hlit) (by simp) (le_refl _)
        (le_trans (Nat.add_le_add_right (Nat.div_le_div_right (Nat.mul_le_mul_left _
          (by simp))) _) hroom)
      rw [flushLiteralRun_ofList (e := { e with bufferedValues := [] }) true hcore.writer
        hcore.indicator hcore.bitWidth hcore.lit_lt (by simp) hcore.groups (by simp)
        (by simp only [List.append_nil] at hroom' ⊢; omega), if_pos rfl, checkBufferFull_of_le]
      · have hrc : e.repeatCount = 8 := by omega
        refine ⟨done ++ [literal lit], [], hcore.closed rfl rfl rfl hcore.current_lt ?_ rfl rfl rfl
          ⟨List.length_pos_iff.2 hlit, hcore.groups, by unfold int32Max; omega, hcore.lit_lt⟩
          (Nat.le_of_dvd (List.length_pos_iff.2 hlit) hcore.groups),
          .repeating hrep (by show e.repeatCount ≤ int32Max; unfold int32Max; omega) rfl rfl ?_⟩
        · dsimp only
          rw [List.append_nil, hcore.literalCount, encodeRuns_append_literal (by omega)]
        · dsimp only
          rw [List.append_assoc, hsuffix, hpre]
          simp [valuesOf]
      · exact room_ofList rfl hcore.maxRun (by simp only [List.append_nil] at hroom' ⊢; simp; omega)
    · have hlit : lit = [] := List.eq_nil_of_length_eq_zero (by rw [← hcore.literalCount]; omega)
      subst hlit
      have hpre : pre = [] := List.eq_nil_of_length_eq_zero (by omega)
      refine ⟨done, [], { hcore with buffered_lt := by simp },
        .repeating hrep (by show e.repeatCount ≤ int32Max; unfold int32Max; omega) rfl rfl ?_⟩
      dsimp only
      rw [List.append_nil, List.append_assoc, hsuffix, hpre, List.nil_append]
    · simp only [List.length_append, List.length_singleton, Nat.reduceShiftLeft,
        hcore.literalCount] at hclose
      have hlit : lit.length = 496 := by have := hcore.groups; omega
      set g := e.bufferedValues ++ [v] with hg
      have hg8 : g.length = 8 := by simp only [g, List.length_append, List.length_singleton]; omega
      have hroom' := hcore.room_open (g := g) (by simp [g]) (by omega)
        (by simp [g]) hroom
      rw [flushLiteralRun_ofList (e := { e with bufferedValues := g, literalCount := e.literalCount + g.length }) true hcore.writer hcore.indicator
        hcore.bitWidth hcore.lit_lt hbuf hcore.groups (by show 8 ∣ g.length; omega)
        (by show (encodeRuns w done).length + 1 + w * (lit ++ g).length / 8 ≤ m; omega),
        if_pos rfl, checkBufferFull_of_le]
      · refine ⟨done ++ [literal (lit ++ g)], [], hcore.closed rfl rfl rfl hcore.current_lt ?_ rfl
          rfl rfl ⟨by simp [hg8], by rw [List.length_append, hg8, hlit]; decide,
            by rw [List.length_append, hg8, hlit]; decide, fun u hu => ?_⟩
          (by simp [hg8]),
          .buffering [] (by simp) (by simp) (by simp [valuesOf, g])⟩
        · dsimp only
          rw [hcore.literalCount, ← List.length_append, encodeRuns_append_literal (by simp; omega)]
        · rcases List.mem_append.1 hu with hu | hu
          exacts [hcore.lit_lt u hu, hbuf u hu]
      · exact room_ofList rfl hcore.maxRun
          (by simp only [List.length_append, List.length_cons, length_pack] at hroom' ⊢; omega)
    · simp only [List.length_append, List.length_singleton, Nat.reduceShiftLeft,
        hcore.literalCount] at hclose
      set g := e.bufferedValues ++ [v] with hg
      have hg8 : g.length = 8 := by simp only [g, List.length_append, List.length_singleton]; omega
      have hroom' := hcore.room_open (g := g) (by simp [g]) (by omega)
        (by simp [g]) hroom
      rw [flushLiteralRun_ofList (e := { e with bufferedValues := g, literalCount := e.literalCount + g.length }) false hcore.writer hcore.indicator
        hcore.bitWidth hcore.lit_lt hbuf hcore.groups (by show 8 ∣ g.length; omega)
        (by show (encodeRuns w done).length + 1 + w * (lit ++ g).length / 8 ≤ m; omega),
        if_neg Bool.false_ne_true]
      refine ⟨done, lit ++ g, hcore.opened rfl rfl rfl hcore.current_lt rfl rfl ?_ rfl (by simp [g]) hbuf
          (by omega) (by rw [List.length_append]; omega),
        .buffering [] (by simp) (by simp) (by simp [g])⟩
      dsimp only
      simp [hcore.literalCount, g]
  · simp only [List.length_append, List.length_singleton] at hfull
    exact ⟨done, lit, { hcore with buffered_lt := hbuf },
      .buffering pre (by simp only [List.length_append, List.length_singleton]; omega) hsuffix
        (by simp)⟩

@[simp] theorem encodeRuns_append (w : Nat) (xs ys : List RleRun) :
    encodeRuns w (xs ++ ys) = encodeRuns w xs ++ encodeRuns w ys :=
  List.flatMap_append

@[simp] theorem valuesOf_append (xs ys : List RleRun) :
    valuesOf (xs ++ ys) = valuesOf xs ++ valuesOf ys :=
  List.flatMap_append

theorem lt_byte_pow {v : Nat} (hv : v < 2 ^ w) : v < 256 ^ ((w + 7) / 8) :=
  calc v < 2 ^ w := hv
    _ ≤ 2 ^ (8 * ((w + 7) / 8)) := Nat.pow_le_pow_right (by decide) (by omega)
    _ = 256 ^ ((w + 7) / 8) := by rw [pow_mul]; rfl

theorem Core.setRepeat (hcore : Core w m e done lit) (r : Nat) {c : Nat} (hc : c < 2 ^ w) :
    Core w m { e with repeatCount := r, currentValue := c } done lit :=
  { hcore with current_lt := hc }

theorem Inv.put {vs : List Nat} (hinv : Inv w m e vs) {v : Nat} (hv : v < 2 ^ w)
    (hroom : (w + 6) * (vs.length + 1) / 8 + minBufferSize w ≤ m) :
    (e.put v).1 = true ∧ Inv w m (e.put v).2 (vs ++ [v]) := by
  obtain ⟨done, lit, hcore, hpend⟩ := hinv
  have hnot : ¬ e.bufferFull = true := by simp [hcore.notFull]
  unfold RleEncoder.put
  rw [if_neg hnot]
  by_cases hsame : e.currentValue = v ∧ e.repeatCount < int32Max
  · rw [if_pos hsame]
    dsimp only
    split_ifs with hmore
    · refine ⟨rfl, done, lit, hcore.setRepeat _ hcore.current_lt, ?_⟩
      cases hpend with
      | repeating h8 _ hbuf hlit hvs =>
        refine .repeating (by dsimp only; omega) (by dsimp only; omega) hbuf hlit ?_
        simp [hvs, ← hsame.1, List.replicate_succ']
      | buffering pre hlen hbuf _ =>
        have := congrArg List.length hbuf
        simp at this
        omega
    · refine ⟨rfl, ?_⟩
      cases hpend with
      | repeating h8 _ _ _ _ => omega
      | buffering pre hlen hbuf hvs =>
        rw [hvs] at hroom ⊢
        refine (hcore.setRepeat (e.repeatCount + 1) hcore.current_lt).bufferValue_inv hv
          pre hlen ?_ (by simpa [Nat.add_assoc] using hroom)
        dsimp only
        rw [hbuf, List.replicate_succ', hsame.1, List.append_assoc]
  · rw [if_neg hsame]
    dsimp only
    refine ⟨rfl, ?_⟩
    cases hpend with
    | repeating h8 hmax hbuf hlit hvs =>
      subst hlit
      have hlong : 8 ≤ (repeated e.repeatCount e.currentValue).values.length := by simpa using h8
      have hwf : (repeated e.repeatCount e.currentValue).WellFormed w :=
        ⟨by omega, hmax, lt_byte_pow hcore.current_lt⟩
      have hdone_wf : ∀ r ∈ done ++ [repeated e.repeatCount e.currentValue], r.WellFormed w :=
        List.forall_mem_append.2 ⟨hcore.done_wf, List.forall_mem_singleton.2 hwf⟩
      have hdone_long : ∀ r ∈ done ++ [repeated e.repeatCount e.currentValue],
          8 ≤ r.values.length :=
        List.forall_mem_append.2 ⟨hcore.done_long, List.forall_mem_singleton.2 hlong⟩
      have hroom' := room_of_cost_closed hdone_wf hdone_long (by simp [hvs, valuesOf])
        (le_trans (Nat.add_le_add_right (Nat.div_le_div_right
          (Nat.mul_le_mul_left _ (Nat.le_succ _))) _) hroom)
      simp only [encodeRuns_append, encodeRuns_cons, encodeRuns_nil, List.length_append,
        List.append_nil] at hroom'
      rw [if_pos h8, flushRepeatedRun_ofList hcore.writer hcore.bitWidth hmax
        (by simp only [openRun, if_pos, List.append_nil]; omega), checkBufferFull_of_le]
      · have hvals : vs ++ [v] =
            valuesOf (done ++ [repeated e.repeatCount e.currentValue]) ++ [] ++ [] ++ [v] := by
          simp [hvs, valuesOf]
        rw [hvals]
        refine Core.bufferValue_inv ?_ hv [] (by simp) (by simp) ?_
        · refine hcore.closed rfl rfl rfl hv ?_ rfl hcore.literalCount
            (hcore.indicator.trans (if_pos rfl)) hwf hlong
          simp [openRun]
        · simpa [hvs, Nat.add_assoc] using hroom
      · refine room_ofList rfl hcore.maxRun ?_
        simp only [openRun, if_pos, List.append_nil, List.length_append]
        omega
    | buffering pre hlen hbuf hvs =>
      have hlt : ¬ e.repeatCount ≥ 8 := by
        have := congrArg List.length hbuf
        simp at this
        omega
      rw [if_neg hlt, hvs]
      rw [hvs] at hroom
      exact (hcore.setRepeat 1 hv).bufferValue_inv hv e.bufferedValues hlen (by simp)
        (by simpa [Nat.add_assoc] using hroom)

theorem Inv.putAll {vs : List Nat} (hinv : Inv w m e vs) (us : List Nat)
    (hus : ∀ u ∈ us, u < 2 ^ w) (hroom : (w + 6) * (vs ++ us).length / 8 + minBufferSize w ≤ m) :
    (e.putAll us).1 = List.replicate us.length true ∧ Inv w m (e.putAll us).2 (vs ++ us) := by
  induction us generalizing e vs with
  | nil => simpa [RleEncoder.putAll] using hinv
  | cons u us ih =>
    have hroom1 : (w + 6) * (vs.length + 1) / 8 + minBufferSize w ≤ m :=
      le_trans (Nat.add_le_add_right (Nat.div_le_div_right (Nat.mul_le_mul_left _
        (by simp))) _) hroom
    obtain ⟨hok, hinv'⟩ := hinv.put (hus u List.mem_cons_self) hroom1
    rcases hput : e.put u with ⟨ok, e'⟩
    rw [hput] at hok hinv'
    obtain ⟨hoks, hinv''⟩ := ih hinv' (fun u' hu' => hus u' (List.mem_cons_of_mem u hu'))
      (by simpa using hroom)
    simp only [RleEncoder.putAll, hput]
    exact ⟨by rw [hoks, List.length_cons, List.replicate_succ, ← hok], by simpa using hinv''⟩

theorem mul_length_div_le {a b : Nat} (h8 : 8 ∣ a) (hb : b ≤ 8) :
    w * (a + b) / 8 ≤ w * a / 8 + w := by
  obtain ⟨k, rfl⟩ := h8
  have hwb : w * b ≤ w * 8 := Nat.mul_le_mul_left w hb
  have hsplit : w * (8 * k + b) = 8 * (w * k) + w * b := by ring
  have hwa : w * (8 * k) = 8 * (w * k) := by ring
  rw [hsplit, hwa]
  omega

theorem Core.flushRepeatedRun_bitWriter (hcore : Core w m e done [])
    (hmax : e.repeatCount ≤ int32Max)
    (hroom : (encodeRuns w (done ++ [repeated e.repeatCount e.currentValue])).length ≤ m) :
    e.flushRepeatedRun.bitWriter =
      BitWriter.ofList m (encodeRuns w (done ++ [repeated e.repeatCount e.currentValue])) := by
  rw [flushRepeatedRun_ofList hcore.writer hcore.bitWidth hmax
    (by simpa [openRun] using hroom), checkBufferFull_bitWriter]
  simp [openRun]

theorem Inv.flush {vs : List Nat} (hinv : Inv w m e vs)
    (hroom : (w + 6) * vs.length / 8 + minBufferSize w ≤ m) :
    ∃ runs pad, e.flush.2.bitWriter = BitWriter.ofList m (encodeRuns w runs) ∧
      (encodeRuns w runs).length ≤ m ∧ (∀ r ∈ runs, r.WellFormed w) ∧
      valuesOf runs = vs ++ List.replicate pad 0 ∧ pad < 8 := by
  obtain ⟨done, lit, hcore, hpend⟩ := hinv
  have hmin := minBufferSize_ge w
  have hshort := hcore.short
  unfold RleEncoder.flush
  dsimp only
  cases hpend with
  | repeating h8 hmax hbuf hlit hvs =>
    subst hlit
    have hwf : (repeated e.repeatCount e.currentValue).WellFormed w :=
      ⟨by omega, hmax, lt_byte_pow hcore.current_lt⟩
    have hdone_wf : ∀ r ∈ done ++ [repeated e.repeatCount e.currentValue], r.WellFormed w :=
      List.forall_mem_append.2 ⟨hcore.done_wf, List.forall_mem_singleton.2 hwf⟩
    have hroom' := room_of_cost_closed hdone_wf
      (List.forall_mem_append.2 ⟨hcore.done_long, List.forall_mem_singleton.2 (by simpa using h8)⟩)
      (by simp [hvs, valuesOf]) hroom
    rw [if_pos (Or.inr (Or.inl (by omega))),
      if_pos ⟨by omega, hcore.literalCount, Or.inr (by simp [hbuf])⟩]
    exact ⟨_, 0, hcore.flushRepeatedRun_bitWriter hmax (by omega), by omega, hdone_wf,
      by simp [hvs], by omega⟩
  | buffering pre hlen hbuf hvs =>
    have hlens := congrArg List.length hbuf
    simp only [List.length_append, List.length_replicate] at hlens
    by_cases hpending : e.literalCount > 0 ∨ e.repeatCount > 0 ∨ e.bufferedValues.length > 0
    · rw [if_pos hpending]
      by_cases hrep : e.repeatCount > 0 ∧ (e.literalCount = 0 ∧
          (e.repeatCount = e.bufferedValues.length ∨ e.bufferedValues.length = 0))
      · rw [if_pos hrep]
        have hlit : lit = [] := List.eq_nil_of_length_eq_zero (by rw [← hcore.literalCount]; omega)
        subst hlit
        have hpre : pre = [] := List.eq_nil_of_length_eq_zero (by omega)
        have hwf : (repeated e.repeatCount e.currentValue).WellFormed w :=
          ⟨hrep.1, by unfold int32Max; omega, lt_byte_pow hcore.current_lt⟩
        have hcost := room_of_cost_closed hcore.done_wf hcore.done_long (by simp [hvs]) hroom
        have hrun := encode_repeated_length_le w e.currentValue hwf.2.1
        refine ⟨_, 0, hcore.flushRepeatedRun_bitWriter hwf.2.1 (by simp; omega), by simp; omega,
          List.forall_mem_append.2 ⟨hcore.done_wf, List.forall_mem_singleton.2 hwf⟩, ?_, by omega⟩
        simp [hvs, hbuf, hpre]
      · rw [if_neg hrep]
        generalize hPdef : (if e.bufferedValues = [] then []
          else e.bufferedValues ++ List.replicate (8 - e.bufferedValues.length) 0) = P
        obtain ⟨pad, hP, hpad, hPlen⟩ : ∃ pad, P = e.bufferedValues ++ List.replicate pad 0 ∧
            pad < 8 ∧ (P = [] ∨ P.length = 8) := by
          by_cases hB0 : e.bufferedValues = []
          · rw [if_pos hB0] at hPdef
            exact ⟨0, by simp [← hPdef, hB0], by omega, .inl hPdef.symm⟩
          · rw [if_neg hB0] at hPdef
            have hpos : 0 < e.bufferedValues.length := List.length_pos_iff.2 hB0
            exact ⟨8 - e.bufferedValues.length, hPdef.symm, by omega,
              .inr (by simp [← hPdef]; omega)⟩
        have h8P : 8 ∣ P.length := by
          rcases hPlen with h | h
          · simp [h]
          · rw [h]
        have hPle : P.length ≤ 8 := by
          rcases hPlen with h | h
          · simp [h]
          · omega
        have hPlt : ∀ u ∈ P, u < 2 ^ w := by
          intro u hu
          rw [hP] at hu
          rcases List.mem_append.1 hu with hu | hu
          · exact hcore.buffered_lt u hu
          · rw [List.eq_of_mem_replicate hu]
            exact Nat.two_pow_pos w
        have hne : lit ++ P ≠ [] := by
          intro h
          obtain ⟨hl, hp⟩ := List.append_eq_nil_iff.1 h
          have hB : e.bufferedValues = [] := by
            rw [hp] at hP
            exact (List.append_eq_nil_iff.1 hP.symm).1
          rw [hB] at hlens
          simp [hcore.literalCount, hl, hB] at hpending
          simp at hlens
          omega
        have hshortP : (lit ++ P).length ≤ 504 := by
          have := hcore.groups
          rw [List.length_append]
          omega
        have hroomP : (encodeRuns w done).length + 1 + w * (lit ++ P).length / 8 ≤ m := by
          have hcost := room_of_cost hcore.done_wf hcore.done_long hcore.groups
            (by simp [hvs]) hroom
          have hdiv := mul_length_div_le (w := w) hcore.groups hPle
          rw [List.length_append]
          by_cases hlit : lit = []
          · simp [openRun, hlit] at hcost hdiv ⊢
            omega
          · rw [List.length_append, length_openRun hlit] at hcost
            omega
        have hwf : (literal (lit ++ P)).WellFormed w := by
          refine ⟨List.length_pos_iff.2 hne, ?_, by unfold int32Max; omega, fun u hu => ?_⟩
          · rw [List.length_append]
            exact Nat.dvd_add hcore.groups h8P
          · rcases List.mem_append.1 hu with hu | hu
            exacts [hcore.lit_lt u hu, hPlt u hu]
        refine ⟨done ++ [literal (lit ++ P)], pad, ?_, ?_,
          List.forall_mem_append.2 ⟨hcore.done_wf, List.forall_mem_singleton.2 hwf⟩,
          by simp [hvs, hP], hpad⟩
        · dsimp only
          rw [flushLiteralRun_ofList
            (e := { e with bufferedValues := P, literalCount := e.literalCount + P.length })
            true hcore.writer hcore.indicator hcore.bitWidth hcore.lit_lt hPlt hcore.groups h8P
            hroomP, if_pos rfl, checkBufferFull_bitWriter]
          dsimp only
          rw [hcore.literalCount, ← List.length_append, encodeRuns_append_literal hshortP]
        · rw [← encodeRuns_append_literal hshortP]
          simp only [List.length_append, List.length_cons, length_pack] at hroomP ⊢
          omega
    · rw [if_neg hpending]
      have hlit : lit = [] := List.eq_nil_of_length_eq_zero (by rw [← hcore.literalCount]; omega)
      have hnil : e.bufferedValues = [] := List.eq_nil_of_length_eq_zero (by omega)
      subst hlit
      have hcost := room_of_cost_closed hcore.done_wf hcore.done_long (by simp [hvs]) hroom
      refine ⟨done, 0, by rw [hcore.writer]; simp [openRun], by omega,
        hcore.done_wf, by simp [hvs, hnil], by omega⟩

/-- The encoder against the decoder. With room for `(w + 6) / 8` bytes a value beyond
`MinBufferSize`, every `Put` of `w`-bit values is accepted, `Flush` stays within the buffer,
and a decoder reset over the bytes written reads back the values, then at most seven zeros
that pad the last literal group, in any split into `GetValues` calls. -/
theorem putAll_flush_getValues {w bufferLen : Nat} {vs : List Nat} (hvs : ∀ v ∈ vs, v < 2 ^ w)
    (hroom : (w + 6) * vs.length / 8 + minBufferSize w ≤ bufferLen) :
    ((create bufferLen w).putAll vs).1 = List.replicate vs.length true ∧
      ((create bufferLen w).putAll vs).2.flush.1 ≤ bufferLen ∧
      ∃ pad < 8, ∀ k, ∃ d, (RleBatchDecoder.reset
        ((create bufferLen w).putAll vs).2.flush.2.bitWriter.bytes w).getValues k =
          (min k (vs.length + pad), (vs ++ List.replicate pad 0).take k, d) := by
  obtain ⟨hoks, hinv⟩ := (init_inv w bufferLen).putAll vs hvs (by simpa using hroom)
  rw [List.nil_append] at hinv
  obtain ⟨runs, pad, hwriter, hlen, hwf, hvals, hpad⟩ := hinv.flush hroom
  refine ⟨hoks, ?_, pad, hpad, fun k => ?_⟩
  · show ((create bufferLen w).putAll vs).2.flush.2.bitWriter.bytesWritten ≤ bufferLen
    rwa [hwriter, BitWriter.ofList_bytesWritten]
  · obtain ⟨d, hd, -⟩ := (RleBatchDecoder.reset_decodes (encodes_encodeRuns hwf)).getValues k
    rw [hwriter, BitWriter.ofList_bytes, hd, hvals]
    simp

theorem putAll_flush_getValues_mixed :
    (∀ v ∈ [1, 1, 1, 1, 1, 1, 1, 1, 1, 2, 3], v < 2 ^ 2) ∧
      (2 + 6) * [1, 1, 1, 1, 1, 1, 1, 1, 1, 2, 3].length / 8 + minBufferSize 2 ≤ 140 ∧
      ∃ d, (RleBatchDecoder.reset
        ((create 140 2).putAll [1, 1, 1, 1, 1, 1, 1, 1, 1, 2, 3]).2.flush.2.bitWriter.bytes
          2).getValues 11 = (11, [1, 1, 1, 1, 1, 1, 1, 1, 1, 2, 3], d) := by
  have hvs : ∀ v ∈ [1, 1, 1, 1, 1, 1, 1, 1, 1, 2, 3], v < 2 ^ 2 := by decide
  have hroom : (2 + 6) * [1, 1, 1, 1, 1, 1, 1, 1, 1, 2, 3].length / 8 + minBufferSize 2 ≤ 140 := by
    decide
  obtain ⟨-, -, pad, -, hget⟩ := putAll_flush_getValues hvs hroom
  obtain ⟨d, hd⟩ := hget 11
  refine ⟨hvs, hroom, d, ?_⟩
  rw [hd]
  simp

end RleEncoder

end Impala
