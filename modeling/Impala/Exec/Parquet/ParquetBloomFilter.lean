import Impala.Lib.LittleEndian
import Impala.Lib.MachineInt

/-!
Parquet Bloom filters as the scanner reads them: `ParquetBloomFilter::Init` and `Find`
(util/parquet-bloom-filter.cc, .h), `ValidateBloomFilterHeader`
(exec/parquet/parquet-bloom-filter-util.cc), and `HdfsParquetScanner::ReadBloomFilterHeader`
and `ProcessBloomFilter` (exec/parquet/hdfs-parquet-scanner.cc).

The header is read with a buffer of 32 bytes, doubled until the Thrift decoder accepts it;
the bytes of the buffer past the header are filter data, and are copied into the data buffer
of `numBytes` bytes whatever `numBytes` is. `Init` takes `max(1, log2(numBytes) - 5)` as the
log of the number of 32-byte buckets, so a filter of fewer than 64 bytes is probed as two
buckets. Every access to the data buffer is recorded as an `Access`.
-/

set_option autoImplicit false

namespace Impala

open LittleEndian MachineInt

/-- The errors of the Bloom filter path, with the message each stands for. -/
inductive BloomFilterError
  /-- A read of `size` bytes at `offset` past the end of the file fails. -/
  | readPastEnd (offset size : Nat)
  /-- "Bloom filter header size ($0) exceeded the limit of $1 bytes." -/
  | headerSizeExceeded (bufferSize : Nat)
  /-- "Unsupported Bloom filter algorithm: ..." -/
  | unsupportedAlgorithm
  /-- "Unsupported Bloom filter hash: ..." -/
  | unsupportedHash
  /-- "Unsupported Bloom filter compression: ..." -/
  | unsupportedCompression
  /-- "Bloom filter size is incorrect: $0. Must be in range (0, MAX_BYTES]." -/
  | sizeIncorrect (numBytes : Int)
  /-- "Parquet Bloom filter too large. log_space_bytes: $0" -/
  | filterTooLarge (logSpaceBytes : Int)
  deriving DecidableEq, Repr

/-- A `ParquetBloomFilter` after `Init`: the log of its number of buckets, and whether every
`Find` is false. -/
structure ParquetBloomFilter where
  logNumBuckets : Nat
  alwaysFalse : Bool
  deriving DecidableEq, Repr

namespace ParquetBloomFilter

def maxBytes : Nat := 128 * 1024 * 1024

def kLogBucketByteSize : Nat := 5

def salt : List Nat :=
  [0x47b6137b, 0x44974d91, 0x8824ad5b, 0xa2b7289d, 0x705495c7, 0x2df1424b, 0x9efc4947, 0x5c6bfb31]

/-- `Init(directory, dir_size, always_false)`; `(int) std::log2(dir_size)` is the floor of the
logarithm of a positive size. -/
def init (dirSize : Nat) (alwaysFalse : Bool) : Except BloomFilterError ParquetBloomFilter :=
  let logSpaceBytes : Int := Nat.log2 dirSize
  let logNumBuckets := max 1 (logSpaceBytes - kLogBucketByteSize)
  if logNumBuckets > 32 then .error (.filterTooLarge logSpaceBytes)
  else .ok ⟨logNumBuckets.toNat, alwaysFalse⟩

def determineBucketIdx (f : ParquetBloomFilter) (hash : UInt64) : Nat :=
  let hashTopBits := hash.toNat >>> 32
  let numBuckets := 2 ^ f.logNumBuckets
  ((hashTopBits * numBuckets % 2 ^ 64) >>> 32) % 2 ^ 32

def readWord (directory : Nat → UInt8) (offset : Nat) : Nat :=
  ofBytes ((List.range 4).map fun i => directory (offset + i))

/-- The loop of `BucketFind` from word `i` on: whether every word has the bit its salt picks,
and the windows of the directory it reads, up to the first word without the bit. -/
def bucketFindFrom (directory : Nat → UInt8) (bucketIdx hash : Nat) :
    Nat → List Nat → Bool × List (Nat × Nat)
  | _, [] => (true, [])
  | i, s :: salts =>
    let hval := (s * hash % 2 ^ 32) >>> 27
    let offset := 32 * bucketIdx + 4 * i
    if readWord directory offset &&& (1 <<< hval) = 0 then (false, [(offset, 4)])
    else
      let r := bucketFindFrom directory bucketIdx hash (i + 1) salts
      (r.1, (offset, 4) :: r.2)

def bucketFind (directory : Nat → UInt8) (bucketIdx hash : Nat) : Bool × List (Nat × Nat) :=
  bucketFindFrom directory bucketIdx hash 0 salt

def find (f : ParquetBloomFilter) (directory : Nat → UInt8) (hash : UInt64) :
    Bool × List (Nat × Nat) :=
  if f.alwaysFalse then (false, [])
  else bucketFind directory (f.determineBucketIdx hash) (hash.toNat % 2 ^ 32)

theorem init_eq {dirSize : Nat} (h : Nat.log2 dirSize ≤ 37) (alwaysFalse : Bool) :
    init dirSize alwaysFalse = .ok ⟨max 1 (Nat.log2 dirSize - kLogBucketByteSize), alwaysFalse⟩ := by
  unfold init kLogBucketByteSize
  rw [if_neg (by omega)]
  congr 2
  omega

theorem determineBucketIdx_lt (f : ParquetBloomFilter) (h32 : f.logNumBuckets ≤ 32) (hash : UInt64) :
    f.determineBucketIdx hash < 2 ^ f.logNumBuckets := by
  unfold determineBucketIdx
  simp only [Nat.shiftRight_eq_div_pow]
  have htop : hash.toNat / 2 ^ 32 < 2 ^ 32 := by
    have := UInt64.toNat_lt hash
    omega
  have hpow : 2 ^ f.logNumBuckets ≤ 2 ^ 32 := Nat.pow_le_pow_right (by norm_num) h32
  have hprod : hash.toNat / 2 ^ 32 * 2 ^ f.logNumBuckets < 2 ^ 32 * 2 ^ f.logNumBuckets :=
    Nat.mul_lt_mul_of_pos_right htop (by positivity)
  have hdiv : hash.toNat / 2 ^ 32 * 2 ^ f.logNumBuckets / 2 ^ 32 < 2 ^ f.logNumBuckets := by
    rw [Nat.div_lt_iff_lt_mul (by positivity), Nat.mul_comm (2 ^ f.logNumBuckets)]
    exact hprod
  have h64 : hash.toNat / 2 ^ 32 * 2 ^ f.logNumBuckets < 2 ^ 64 :=
    calc _ < 2 ^ 32 * 2 ^ f.logNumBuckets := hprod
      _ ≤ 2 ^ 32 * 2 ^ 32 := Nat.mul_le_mul_left _ hpow
      _ = 2 ^ 64 := by norm_num
  rw [Nat.mod_eq_of_lt h64, Nat.mod_eq_of_lt (lt_of_lt_of_le hdiv hpow)]
  exact hdiv

theorem determineBucketIdx_top_bit {f : ParquetBloomFilter} (h1 : f.logNumBuckets = 1)
    {hash : UInt64} (htop : 2 ^ 63 ≤ hash.toNat) : f.determineBucketIdx hash = 1 := by
  unfold determineBucketIdx
  simp only [Nat.shiftRight_eq_div_pow, h1, pow_one]
  have := UInt64.toNat_lt hash
  omega

theorem bucketFindFrom_reads (directory : Nat → UInt8) (bucketIdx hash : Nat) (salts : List Nat)
    (i : Nat) : ∀ w ∈ (bucketFindFrom directory bucketIdx hash i salts).2,
      32 * bucketIdx + 4 * i ≤ w.1 ∧ w.1 + w.2 ≤ 32 * bucketIdx + 4 * (i + salts.length) := by
  induction salts generalizing i with
  | nil => simp [bucketFindFrom]
  | cons s salts ih =>
    intro w hw
    simp only [bucketFindFrom] at hw
    split at hw
    · simp only [List.mem_singleton] at hw
      subst hw
      simp only [List.length_cons]
      omega
    · simp only [List.mem_cons] at hw
      rcases hw with rfl | hw
      · simp only [List.length_cons]
        omega
      · have := ih (i + 1) w hw
        simp only [List.length_cons]
        omega

theorem bucketFind_reads (directory : Nat → UInt8) (bucketIdx hash : Nat) :
    ∀ w ∈ (bucketFind directory bucketIdx hash).2,
      32 * bucketIdx ≤ w.1 ∧ w.1 + w.2 ≤ 32 * bucketIdx + 32 := by
  intro w hw
  have := bucketFindFrom_reads directory bucketIdx hash salt 0 w hw
  simp only [salt, List.length_cons, List.length_nil] at this
  omega

theorem bucketFind_reads_first (directory : Nat → UInt8) (bucketIdx hash : Nat) :
    (32 * bucketIdx, 4) ∈ (bucketFind directory bucketIdx hash).2 := by
  unfold bucketFind salt
  rw [bucketFindFrom]
  split <;> simp

theorem find_reads (f : ParquetBloomFilter) (h32 : f.logNumBuckets ≤ 32) (directory : Nat → UInt8)
    (hash : UInt64) : ∀ w ∈ (f.find directory hash).2, w.1 + w.2 ≤ 32 * 2 ^ f.logNumBuckets := by
  intro w hw
  unfold find at hw
  split at hw
  · simp at hw
  · have hidx := determineBucketIdx_lt f h32 hash
    have := (bucketFind_reads _ _ _ w hw).2
    omega

theorem init_find_reads_within {dirSize : Nat} (h64 : 64 ≤ dirSize) (hmax : dirSize ≤ maxBytes)
    (directory : Nat → UInt8) (hash : UInt64) :
    ∃ f, init dirSize false = .ok f ∧ ∀ w ∈ (f.find directory hash).2, w.1 + w.2 ≤ dirSize := by
  have hlog : 6 ≤ Nat.log2 dirSize := (Nat.le_log2 (by omega)).mpr (by simpa using h64)
  have hlog27 : Nat.log2 dirSize ≤ 37 := by
    have : Nat.log2 dirSize < 28 := (Nat.log2_lt (by omega)).mpr (by unfold maxBytes at hmax; omega)
    omega
  refine ⟨_, init_eq hlog27 false, fun w hw => ?_⟩
  have hreads := find_reads _ (by simp only [kLogBucketByteSize]; omega) directory hash w hw
  have hbuckets : 32 * 2 ^ (max 1 (Nat.log2 dirSize - kLogBucketByteSize)) = 2 ^ Nat.log2 dirSize := by
    rw [show max 1 (Nat.log2 dirSize - kLogBucketByteSize) = Nat.log2 dirSize - 5 by
      simp only [kLogBucketByteSize]; omega]
    rw [show (32 : Nat) = 2 ^ 5 by norm_num, ← Nat.pow_add]
    congr 1
    omega
  have hself := Nat.log2_self_le (n := dirSize) (by omega)
  simp only at hreads
  omega

theorem init_find_reads_second_bucket {dirSize : Nat} (hpos : 0 < dirSize) (h64 : dirSize < 64)
    (directory : Nat → UInt8) {hash : UInt64} (htop : 2 ^ 63 ≤ hash.toNat) :
    ∃ f, init dirSize false = .ok f ∧ f.logNumBuckets = 1 ∧ (32, 4) ∈ (f.find directory hash).2 := by
  have hlog : Nat.log2 dirSize < 6 := (Nat.log2_lt (by omega)).mpr (by simpa using h64)
  refine ⟨_, init_eq (by omega) false, by simp only [kLogBucketByteSize]; omega, ?_⟩
  have hidx := determineBucketIdx_top_bit (f := ⟨max 1 (Nat.log2 dirSize - kLogBucketByteSize), false⟩)
    (by simp only [kLogBucketByteSize]; omega) htop
  simp only [find, Bool.false_eq_true, if_false, hidx]
  exact bucketFind_reads_first directory 1 _

end ParquetBloomFilter

/-! ### The scanner -/

/-- The fields of a `parquet::BloomFilterHeader` that `ValidateBloomFilterHeader` checks. -/
structure BloomFilterHeader where
  numBytes : Int
  algorithmIsBlock : Bool
  hashIsXxhash : Bool
  compressionIsUncompressed : Bool
  deriving DecidableEq, Repr

def validateBloomFilterHeader (h : BloomFilterHeader) : Except BloomFilterError Unit :=
  if !h.algorithmIsBlock then .error .unsupportedAlgorithm
  else if !h.hashIsXxhash then .error .unsupportedHash
  else if !h.compressionIsUncompressed then .error .unsupportedCompression
  else if h.numBytes ≤ 0 ∨ h.numBytes > ParquetBloomFilter.maxBytes then
    .error (.sizeIncorrect h.numBytes)
  else .ok ()

theorem validateBloomFilterHeader_eq_ok (h : BloomFilterHeader) :
    validateBloomFilterHeader h = .ok () ↔
      h.algorithmIsBlock ∧ h.hashIsXxhash ∧ h.compressionIsUncompressed ∧
        0 < h.numBytes ∧ h.numBytes ≤ ParquetBloomFilter.maxBytes := by
  unfold validateBloomFilterHeader
  split_ifs <;> simp_all
  omega

/-- `DeserializeThriftMsg` of a `BloomFilterHeader` in compact protocol: the header and the
bytes it takes, never more than it is given. -/
structure HeaderDecoder where
  deserialize : List UInt8 → Option (BloomFilterHeader × Nat)
  consumed_le : ∀ bytes hdr n, deserialize bytes = some (hdr, n) → n ≤ bytes.length

/-- An access to the data buffer: `len` bytes from `offset`, written or read. -/
inductive Access
  | write (offset len : Nat)
  | read (offset len : Nat)
  deriving DecidableEq, Repr

def Access.Within (size : Nat) : Access → Prop
  | .write offset len => offset + len ≤ size
  | .read offset len => offset + len ≤ size

instance (size : Nat) : DecidablePred (Access.Within size) := fun a => by
  cases a <;> unfold Access.Within <;> infer_instance

/-- A column chunk as the loop of `ProcessBloomFilter` sees it: its `bloom_filter_offset`, when
`meta_data` and the offset are set, and whether its pages are dictionary encoded. -/
structure ColumnChunk where
  bloomFilterOffset : Option Nat
  dictionaryEncoded : Bool

/-- What `ProcessBloomFilter` does for one column: whether `Find` answered true (or the error),
the size of the data buffer, and its accesses to it. -/
structure Probe where
  status : Except BloomFilterError Bool
  dataBufferSize : Nat
  accesses : List Access

namespace HdfsParquetScanner

def maxBloomFilterHeaderSize : Nat := 1024

/-- `ReadToBuffer(offset, buffer, size)`: the `size` bytes of the file at `offset`; a range past
the end of the file fails. -/
def readToBuffer (file : List UInt8) (offset size : Nat) : Except BloomFilterError (List UInt8) :=
  if offset + size ≤ file.length then .ok ((file.drop offset).take size)
  else .error (.readPastEnd offset size)

/-- The loop of `ReadBloomFilterHeader` over the buffer sizes from `bufferSize :: sizes`: the
header, `header_size` and the bytes of the buffer it was read from. -/
def readBloomFilterHeaderFrom (decoder : HeaderDecoder) (file : List UInt8) (offset : Nat) :
    List Nat → Except BloomFilterError (BloomFilterHeader × Nat × List UInt8)
  | [] => .error (.headerSizeExceeded (2 * maxBloomFilterHeaderSize))
  | bufferSize :: sizes =>
    match readToBuffer file offset bufferSize with
    | .error e => .error e
    | .ok buffer =>
      let status := decoder.deserialize buffer
      if bufferSize * 2 > maxBloomFilterHeaderSize then
        .error (.headerSizeExceeded (bufferSize * 2))
      else
        match status with
        | some (hdr, headerSize) => .ok (hdr, headerSize, buffer)
        | none => readBloomFilterHeaderFrom decoder file offset sizes

def readBloomFilterHeader (decoder : HeaderDecoder) (file : List UInt8) (offset : Nat) :
    Except BloomFilterError (BloomFilterHeader × Nat × List UInt8) :=
  readBloomFilterHeaderFrom decoder file offset [32, 64, 128, 256, 512, 1024]

/-- The data buffer as `Find` reads it: the tail of the header buffer, the bytes read after it,
then the memory that follows. -/
def dataBuffer (heap : Nat → UInt8) (copied rest : List UInt8) : Nat → UInt8 :=
  fun i => ((copied ++ rest)[i]?).getD (heap i)

/-- The body of the loop of `ProcessBloomFilter` for a column whose Bloom filter is at `offset`,
probed with `hash`; `heap` is the memory past the data buffer. -/
def probeColumn (decoder : HeaderDecoder) (file : List UInt8) (heap : Nat → UInt8) (offset : Nat)
    (hash : UInt64) : Probe :=
  match readBloomFilterHeader decoder file offset with
  | .error e => ⟨.error e, 0, []⟩
  | .ok (hdr, headerSize, headerBuffer) =>
    match validateBloomFilterHeader hdr with
    | .error e => ⟨.error e, 0, []⟩
    | .ok () =>
      let numBytes := hdr.numBytes.toNat
      let dataAlreadyRead := subUInt32 headerBuffer.length headerSize
      let copy := Access.write 0 dataAlreadyRead
      let dataToRead := subUInt32 numBytes dataAlreadyRead
      match readToBuffer file (offset + headerBuffer.length) dataToRead with
      | .error e => ⟨.error e, numBytes, [copy]⟩
      | .ok rest =>
        let fill := Access.write dataAlreadyRead dataToRead
        let directory := dataBuffer heap (headerBuffer.drop headerSize) rest
        match ParquetBloomFilter.init numBytes false with
        | .error e => ⟨.error e, numBytes, [copy, fill]⟩
        | .ok f =>
          let r := f.find directory hash
          ⟨.ok r.1, numBytes, [copy, fill] ++ r.2.map fun w => .read w.1 w.2⟩

/-- `ProcessBloomFilter(row_group, &skip_row_group)` over the columns of the equality conjuncts
and their hashes: whether the row group is skipped (or the error), and the probes made. -/
def processBloomFilter (decoder : HeaderDecoder) (file : List UInt8) (heap : Nat → UInt8) :
    List (ColumnChunk × UInt64) → Except BloomFilterError Bool × List Probe
  | [] => (.ok false, [])
  | (col, hash) :: cols =>
    match col.bloomFilterOffset with
    | some offset =>
      if col.dictionaryEncoded then processBloomFilter decoder file heap cols
      else
        let p := probeColumn decoder file heap offset hash
        match p.status with
        | .error e => (.error e, [p])
        | .ok false => (.ok true, [p])
        | .ok true =>
          let r := processBloomFilter decoder file heap cols
          (r.1, p :: r.2)
    | none => processBloomFilter decoder file heap cols

theorem readBloomFilterHeader_first {decoder : HeaderDecoder} {file : List UInt8} {offset : Nat}
    {hdr : BloomFilterHeader} {headerSize : Nat} (hfirst : offset + 32 ≤ file.length)
    (hdec : decoder.deserialize ((file.drop offset).take 32) = some (hdr, headerSize)) :
    readBloomFilterHeader decoder file offset = .ok (hdr, headerSize, (file.drop offset).take 32) := by
  rw [readBloomFilterHeader, readBloomFilterHeaderFrom, readToBuffer, if_pos hfirst]
  simp only
  rw [if_neg (by decide), hdec]

theorem readBloomFilterHeaderFrom_le {decoder : HeaderDecoder} {file : List UInt8} {offset : Nat}
    {hdr : BloomFilterHeader} {headerSize : Nat} {buffer : List UInt8} (sizes : List Nat)
    (h : readBloomFilterHeaderFrom decoder file offset sizes = .ok (hdr, headerSize, buffer)) :
    headerSize ≤ buffer.length ∧ buffer.length ≤ 512 := by
  induction sizes with
  | nil => simp [readBloomFilterHeaderFrom] at h
  | cons bufferSize sizes ih =>
    rw [readBloomFilterHeaderFrom] at h
    split at h
    · simp at h
    next buffer' hread =>
      by_cases hsize : bufferSize * 2 > maxBloomFilterHeaderSize
      · rw [if_pos hsize] at h
        simp at h
      rw [if_neg hsize] at h
      simp only [maxBloomFilterHeaderSize] at hsize
      split at h
      next hdr' headerSize' hdec =>
        simp only [Except.ok.injEq, Prod.mk.injEq] at h
        obtain ⟨rfl, rfl, rfl⟩ := h
        have hlen : buffer'.length ≤ bufferSize := by
          unfold readToBuffer at hread
          split_ifs at hread
          simp only [Except.ok.injEq] at hread
          rw [← hread, List.length_take]
          omega
        exact ⟨decoder.consumed_le _ _ _ hdec, by omega⟩
      next => exact ih h

theorem readBloomFilterHeader_le {decoder : HeaderDecoder} {file : List UInt8} {offset : Nat}
    {hdr : BloomFilterHeader} {headerSize : Nat} {buffer : List UInt8}
    (h : readBloomFilterHeader decoder file offset = .ok (hdr, headerSize, buffer)) :
    headerSize ≤ buffer.length ∧ buffer.length ≤ 512 :=
  readBloomFilterHeaderFrom_le _ h

section Probe

variable {decoder : HeaderDecoder} {file : List UInt8} (heap : Nat → UInt8) {offset : Nat}
  (hash : UInt64) {hdr : BloomFilterHeader} {headerSize : Nat} {headerBuffer : List UInt8}

theorem probeColumn_of_ok {rest : List UInt8} {f : ParquetBloomFilter}
    (hheader : readBloomFilterHeader decoder file offset = .ok (hdr, headerSize, headerBuffer))
    (hvalid : validateBloomFilterHeader hdr = .ok ())
    (hrest : readToBuffer file (offset + headerBuffer.length)
      (subUInt32 hdr.numBytes.toNat (subUInt32 headerBuffer.length headerSize)) = .ok rest)
    (hinit : ParquetBloomFilter.init hdr.numBytes.toNat false = .ok f) :
    probeColumn decoder file heap offset hash =
      let already := subUInt32 headerBuffer.length headerSize
      let r := f.find (dataBuffer heap (headerBuffer.drop headerSize) rest) hash
      ⟨.ok r.1, hdr.numBytes.toNat,
        [.write 0 already, .write already (subUInt32 hdr.numBytes.toNat already)] ++
          r.2.map fun w => .read w.1 w.2⟩ := by
  simp only [probeColumn, hheader, hvalid, hrest, hinit]

theorem probeColumn_of_read_error {e : BloomFilterError}
    (hheader : readBloomFilterHeader decoder file offset = .ok (hdr, headerSize, headerBuffer))
    (hvalid : validateBloomFilterHeader hdr = .ok ())
    (hrest : readToBuffer file (offset + headerBuffer.length)
      (subUInt32 hdr.numBytes.toNat (subUInt32 headerBuffer.length headerSize)) = .error e) :
    probeColumn decoder file heap offset hash =
      ⟨.error e, hdr.numBytes.toNat, [.write 0 (subUInt32 headerBuffer.length headerSize)]⟩ := by
  simp only [probeColumn, hheader, hvalid, hrest]

theorem probeColumn_copies_past_numBytes
    (hheader : readBloomFilterHeader decoder file offset = .ok (hdr, headerSize, headerBuffer))
    (hvalid : validateBloomFilterHeader hdr = .ok ())
    (hover : hdr.numBytes < headerBuffer.length - headerSize) :
    let p := probeColumn decoder file heap offset hash
    let already := headerBuffer.length - headerSize
    let wrapped := hdr.numBytes.toNat + 2 ^ 32 - already
    Access.write 0 already ∈ p.accesses ∧ ¬ (Access.write 0 already).Within p.dataBufferSize ∧
      (p.status = .error (.readPastEnd (offset + headerBuffer.length) wrapped) ∨
        Access.write already wrapped ∈ p.accesses) := by
  intro p already wrapped
  obtain ⟨hle, h512⟩ := readBloomFilterHeader_le hheader
  have hpos := ((validateBloomFilterHeader_eq_ok hdr).mp hvalid).2.2.2.1
  have halready : subUInt32 headerBuffer.length headerSize = already :=
    subUInt32_of_le hle (by omega)
  have hwrap : subUInt32 hdr.numBytes.toNat already = wrapped := subUInt32_of_lt (by omega) (by omega)
  have hover' : ¬ (Access.write 0 already).Within hdr.numBytes.toNat := by
    simp only [Access.Within]
    omega
  cases hrest : readToBuffer file (offset + headerBuffer.length) wrapped with
  | error e =>
    have hp : p = ⟨.error e, hdr.numBytes.toNat, [.write 0 already]⟩ := by
      rw [← halready]
      exact probeColumn_of_read_error heap hash hheader hvalid (by rw [halready, hwrap]; exact hrest)
    have he : e = .readPastEnd (offset + headerBuffer.length) wrapped := by
      unfold readToBuffer at hrest
      split_ifs at hrest
      simp only [Except.error.injEq] at hrest
      exact hrest.symm
    rw [hp, he]
    exact ⟨by simp, hover', Or.inl rfl⟩
  | ok rest =>
    have hp : p.dataBufferSize = hdr.numBytes.toNat ∧
        ∃ more, p.accesses = [.write 0 already, .write already wrapped] ++ more := by
      simp only [p, probeColumn, hheader, hvalid, halready, hwrap, hrest]
      split
      · exact ⟨rfl, [], rfl⟩
      · exact ⟨rfl, _, rfl⟩
    obtain ⟨hsize, more, hmore⟩ := hp
    rw [hsize, hmore]
    exact ⟨by simp, hover', Or.inr (by simp)⟩

theorem probeColumn_within
    (hheader : readBloomFilterHeader decoder file offset = .ok (hdr, headerSize, headerBuffer))
    (hvalid : validateBloomFilterHeader hdr = .ok ()) (h64 : 64 ≤ hdr.numBytes)
    (hcopy : ((headerBuffer.length - headerSize : Nat) : Int) ≤ hdr.numBytes) :
    ∀ a ∈ (probeColumn decoder file heap offset hash).accesses,
      a.Within (probeColumn decoder file heap offset hash).dataBufferSize := by
  obtain ⟨hle, h512⟩ := readBloomFilterHeader_le hheader
  have hmax := ((validateBloomFilterHeader_eq_ok hdr).mp hvalid).2.2.2.2
  have halready : subUInt32 headerBuffer.length headerSize = headerBuffer.length - headerSize :=
    subUInt32_of_le hle (by omega)
  have htoread : subUInt32 hdr.numBytes.toNat (headerBuffer.length - headerSize) =
      hdr.numBytes.toNat - (headerBuffer.length - headerSize) :=
    subUInt32_of_le (by omega) (by unfold ParquetBloomFilter.maxBytes at hmax; omega)
  cases hrest : readToBuffer file (offset + headerBuffer.length)
      (hdr.numBytes.toNat - (headerBuffer.length - headerSize)) with
  | error e =>
    rw [probeColumn_of_read_error heap hash hheader hvalid (by rw [halready, htoread]; exact hrest)]
    simp only [List.mem_singleton, forall_eq, Access.Within, halready]
    omega
  | ok rest =>
    obtain ⟨f, hinit, hreads⟩ := ParquetBloomFilter.init_find_reads_within
      (by omega : 64 ≤ hdr.numBytes.toNat) (by unfold ParquetBloomFilter.maxBytes at hmax ⊢; omega)
      (dataBuffer heap (headerBuffer.drop headerSize) rest) hash
    rw [probeColumn_of_ok heap hash hheader hvalid (by rw [halready, htoread]; exact hrest) hinit]
    intro a ha
    simp only [halready, htoread, List.cons_append, List.nil_append, List.mem_cons,
      List.mem_map] at ha
    rcases ha with rfl | rfl | ⟨w, hw, rfl⟩
    · simp only [Access.Within]
      omega
    · simp only [Access.Within]
      omega
    · exact hreads w hw

/-- The accesses of `ProcessBloomFilter` to the data buffer of one column after its header is
read and validated. When the filter has at least 64 bytes and no fewer than those read with the
header, every copy and every load of `Find` stays within its `numBytes` bytes. When the header
buffer already holds more bytes than the filter, the first `memcpy` writes past the buffer, and
the read of the rest, of a count wrapped in `uint32_t`, fails or writes past it as well. -/
theorem probeColumn_accesses
    (hheader : readBloomFilterHeader decoder file offset = .ok (hdr, headerSize, headerBuffer))
    (hvalid : validateBloomFilterHeader hdr = .ok ()) :
    (64 ≤ hdr.numBytes → ((headerBuffer.length - headerSize : Nat) : Int) ≤ hdr.numBytes →
      ∀ a ∈ (probeColumn decoder file heap offset hash).accesses,
        a.Within (probeColumn decoder file heap offset hash).dataBufferSize) ∧
    (hdr.numBytes < headerBuffer.length - headerSize →
      let p := probeColumn decoder file heap offset hash
      let already := headerBuffer.length - headerSize
      let wrapped := hdr.numBytes.toNat + 2 ^ 32 - already
      Access.write 0 already ∈ p.accesses ∧ ¬ (Access.write 0 already).Within p.dataBufferSize ∧
        (p.status = .error (.readPastEnd (offset + headerBuffer.length) wrapped) ∨
          Access.write already wrapped ∈ p.accesses)) :=
  ⟨probeColumn_within heap hash hheader hvalid,
    probeColumn_copies_past_numBytes heap hash hheader hvalid⟩

end Probe

theorem probeColumn_accesses_sixty_four :
    let decoder : HeaderDecoder :=
      ⟨fun bytes => if 16 ≤ bytes.length then some (⟨64, true, true, true⟩, 16) else none,
        fun bytes hdr n h => by
          split at h
          · simp only [Option.some.injEq, Prod.mk.injEq] at h
            omega
          · simp at h⟩
    (probeColumn decoder (List.replicate 80 0) (fun _ => 0) 0 0).accesses.all
      (fun a => decide (a.Within (probeColumn decoder (List.replicate 80 0) (fun _ => 0) 0 0).dataBufferSize)) =
        true :=
  List.all_eq_true.2 fun a ha => decide_eq_true ((probeColumn_accesses (fun _ => 0) 0
    (@readBloomFilterHeader_first _ _ _ ⟨64, true, true, true⟩ 16 (by decide) (by decide))
    (by decide)).1 (by decide) (by decide) a ha)

theorem processBloomFilter_single {decoder : HeaderDecoder} {file : List UInt8} {heap : Nat → UInt8}
    {offset : Nat} {hash : UInt64} {found : Bool}
    (hstatus : (probeColumn decoder file heap offset hash).status = .ok found) :
    processBloomFilter decoder file heap [(⟨some offset, false⟩, hash)] =
      (.ok !found, [probeColumn decoder file heap offset hash]) := by
  simp only [processBloomFilter, Bool.false_eq_true, if_false, hstatus]
  cases found <;> rfl

/-- A filter of at most 32 bytes right after a header read from the first 32-byte buffer: the
call succeeds, and `Find` with a hash whose top bit is set reads bytes 32 to 36 of the data
buffer, past its `numBytes` bytes. -/
theorem processBloomFilter_reads_past_numBytes (decoder : HeaderDecoder) (file : List UInt8)
    (heap : Nat → UInt8) {offset : Nat} {hash : UInt64} {hdr : BloomFilterHeader} {headerSize : Nat}
    (hfirst : offset + 32 ≤ file.length)
    (hdec : decoder.deserialize ((file.drop offset).take 32) = some (hdr, headerSize))
    (hvalid : validateBloomFilterHeader hdr = .ok ()) (hsmall : hdr.numBytes ≤ 32)
    (hcopy : ((32 - headerSize : Nat) : Int) ≤ hdr.numBytes)
    (hrest : offset + 32 + (hdr.numBytes.toNat - (32 - headerSize)) ≤ file.length)
    (htop : 2 ^ 63 ≤ hash.toNat) :
    let r := processBloomFilter decoder file heap [(⟨some offset, false⟩, hash)]
    (∃ skip, r.1 = .ok skip) ∧ ∃ p ∈ r.2, ∃ a ∈ p.accesses, ¬ a.Within p.dataBufferSize := by
  have hheader := readBloomFilterHeader_first hfirst hdec
  have hbuf : ((file.drop offset).take 32).length = 32 := by
    simp only [List.length_take, List.length_drop]
    omega
  obtain ⟨hle, -⟩ := readBloomFilterHeader_le hheader
  rw [hbuf] at hle
  have hpos := ((validateBloomFilterHeader_eq_ok hdr).mp hvalid).2.2.2.1
  have halready : subUInt32 ((file.drop offset).take 32).length headerSize = 32 - headerSize := by
    rw [hbuf]
    exact subUInt32_of_le hle (by norm_num)
  have htoread : subUInt32 hdr.numBytes.toNat (32 - headerSize) =
      hdr.numBytes.toNat - (32 - headerSize) := subUInt32_of_le (by omega) (by omega)
  have hread : readToBuffer file (offset + ((file.drop offset).take 32).length)
      (subUInt32 hdr.numBytes.toNat (subUInt32 ((file.drop offset).take 32).length headerSize)) =
      .ok ((file.drop (offset + 32)).take (hdr.numBytes.toNat - (32 - headerSize))) := by
    rw [halready, htoread, hbuf, readToBuffer, if_pos hrest]
  obtain ⟨f, hinit, -, hsecond⟩ := ParquetBloomFilter.init_find_reads_second_bucket
    (by omega : 0 < hdr.numBytes.toNat) (by omega)
    (dataBuffer heap (((file.drop offset).take 32).drop headerSize)
      ((file.drop (offset + 32)).take (hdr.numBytes.toNat - (32 - headerSize)))) htop
  have hp := probeColumn_of_ok heap hash hheader hvalid hread hinit
  dsimp only
  rw [processBloomFilter_single (by rw [hp])]
  refine ⟨⟨_, rfl⟩, _, List.mem_singleton_self _, .read 32 4, ?_, ?_⟩
  · rw [hp]
    simp only [List.mem_append, List.mem_map]
    exact Or.inr ⟨_, hsecond, rfl⟩
  · rw [hp]
    simp only [Access.Within]
    omega

theorem processBloomFilter_reads_past_numBytes_sixteen :
    let decoder : HeaderDecoder :=
      ⟨fun bytes => if 16 ≤ bytes.length then some (⟨16, true, true, true⟩, 16) else none,
        fun bytes hdr n h => by
          split at h
          · simp only [Option.some.injEq, Prod.mk.injEq] at h
            omega
          · simp at h⟩
    let r := processBloomFilter decoder (List.replicate 64 0) (fun _ => 0)
      [(⟨some 0, false⟩, 0x8000000000000000)]
    (∃ skip, r.1 = .ok skip) ∧ ∃ p ∈ r.2, ∃ a ∈ p.accesses, ¬ a.Within p.dataBufferSize :=
  @processBloomFilter_reads_past_numBytes _ _ _ _ _ ⟨16, true, true, true⟩ 16
    (by decide) (by decide) rfl (by decide) (by decide) (by decide) (by decide)

end HdfsParquetScanner

end Impala
