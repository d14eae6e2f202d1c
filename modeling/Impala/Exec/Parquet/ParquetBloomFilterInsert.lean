import Impala.Exec.Parquet.ParquetBloomFilter
import Impala.Lib.Memory
import Mathlib.Data.Nat.Bitwise

/-!
Inserting into a Parquet Bloom filter and the three implementations of its buckets
(util/parquet-bloom-filter.cc, parquet-bloom-filter-avx2.cc): `BucketInsert` and
`BucketFind` on x86 without AVX2, their AVX2 versions, and the NEON versions built on
aarch64.

A bucket is eight little-endian 32-bit words of the directory. Each version computes the same
mask, one bit in each word, the top five bits of `SALT[i] * hash` in `uint32_t` arithmetic
(`makeMaskAvx2_eq`, `makeMaskNeon_eq`); inserting ORs it into the bucket and finding checks
that every one of its bits is set. A 256-bit register is modelled as its eight 32-bit lanes and
a 128-bit one as four, the lanes being the words a load reads.

With that, `Insert` sets exactly the mask's bits of the hash's bucket and nothing else, every
version stores the same directory and answers the same, and a filter answers `Find` with true
for every hash inserted since `Init`, whatever the directory size from `MIN_BYTES` to
`MAX_BYTES`.
-/

set_option autoImplicit false

namespace Impala

open LittleEndian Memory MachineInt

namespace ParquetBloomFilter

/-! ### Words of the directory -/

def writeWord (directory : Nat → UInt8) (offset w : Nat) : Nat → UInt8 :=
  writeList directory offset (toBytes w 4)

def loadWords (directory : Nat → UInt8) (offset : Nat) : Nat → List Nat
  | 0 => []
  | n + 1 => readWord directory offset :: loadWords directory (offset + 4) n

def storeWords (directory : Nat → UInt8) (offset : Nat) : List Nat → Nat → UInt8
  | [] => directory
  | w :: ws => storeWords (writeWord directory offset w) (offset + 4) ws

def orStore (directory : Nat → UInt8) (offset : Nat) (lanes : List Nat) : Nat → UInt8 :=
  storeWords directory offset (List.zipWith (· ||| ·) (loadWords directory offset lanes.length) lanes)

def loadBucket (directory : Nat → UInt8) (bucketIdx : Nat) : List Nat :=
  loadWords directory (32 * bucketIdx) 8

/-! ### The mask -/

/-- The mask every version computes for the low 32 bits `hash`: in word `i`, the bit
`(SALT[i] * hash mod 2^32) >> 27`. -/
def specMask (hash : Nat) : List Nat := salt.map fun s => 2 ^ ((s * hash % 2 ^ 32) >>> 27)

def bucketHas (words mask : List Nat) : Bool :=
  (List.zipWith (fun w m => decide (w &&& m ≠ 0)) words mask).all id

/-! ### `BucketInsert` and `BucketFind` on x86 without AVX2 -/

/-- `BucketInsert`: `new_bucket` has `1U << ((SALT[i] * hash) >> 27)` in word `i`, and is ORed
into the bucket as two 128-bit halves. -/
def bucketInsert (directory : Nat → UInt8) (bucketIdx hash : Nat) : Nat → UInt8 :=
  let newBucket := salt.map fun s => 1 <<< ((s * hash % 2 ^ 32) >>> 27)
  orStore (orStore directory (32 * bucketIdx) (newBucket.take 4)) (32 * bucketIdx + 16)
    (newBucket.drop 4)

/-! ### AVX2: a 256-bit register is its eight 32-bit lanes -/

def mulloEpi32 (a b : List Nat) : List Nat := List.zipWith (fun x y => x * y % 2 ^ 32) a b

def srliEpi32 (a : List Nat) (n : Nat) : List Nat := a.map (· >>> n)

def sllvEpi32 (a counts : List Nat) : List Nat :=
  List.zipWith (fun x c => if c < 32 then (x <<< c) % 2 ^ 32 else 0) a counts

def orSi256 (a b : List Nat) : List Nat := List.zipWith (· ||| ·) a b

def testcSi256 (a b : List Nat) : Bool :=
  (List.zipWith (fun x y => (x ^^^ (2 ^ 32 - 1)) &&& y == 0) a b).all id

def makeMaskAvx2 (hash : Nat) : List Nat :=
  let ones := List.replicate 8 1
  let rehash := salt
  let hashData := List.replicate 8 hash
  let hashData := mulloEpi32 rehash hashData
  let hashData := srliEpi32 hashData 27
  sllvEpi32 ones hashData

def bucketInsertAvx2 (directory : Nat → UInt8) (bucketIdx hash : Nat) : Nat → UInt8 :=
  storeWords directory (32 * bucketIdx) (orSi256 (loadBucket directory bucketIdx) (makeMaskAvx2 hash))

def bucketFindAvx2 (directory : Nat → UInt8) (bucketIdx hash : Nat) : Bool :=
  testcSi256 (loadBucket directory bucketIdx) (makeMaskAvx2 hash)

/-! ### NEON: a 128-bit register is its four 32-bit lanes -/

/-- `vshlq_u32(a, b)`: each lane shifted by the signed lane of `b`, to the left when it is not
negative (a count above 31 clears the lane), to the right otherwise. -/
def vshlqU32 (a : List Nat) (b : List Int) : List Nat :=
  List.zipWith (fun (x : Nat) (t : Int) => if 0 ≤ t then (if t < 32 then (x <<< t.toNat) % 2 ^ 32 else 0)
    else x >>> (-t).toNat) a b

/-- `vtstq_u32(a, b)`: all ones in a lane where `a & b` is not zero. -/
def vtstqU32 (a b : List Nat) : List Nat :=
  List.zipWith (fun x y => if x &&& y ≠ 0 then 2 ^ 32 - 1 else 0) a b

def makeMaskNeon (hash : Nat) : List Nat × List Nat :=
  let ones := List.replicate 4 1
  let rehash := (salt.take 4, salt.drop 4)
  let hashData := List.replicate 4 hash
  let t0 := (srliEpi32 (mulloEpi32 rehash.1 hashData) 27).map fun (x : Nat) => toSigned 32 x
  let t1 := (srliEpi32 (mulloEpi32 rehash.2 hashData) 27).map fun (x : Nat) => toSigned 32 x
  (vshlqU32 ones t0, vshlqU32 ones t1)

def bucketInsertNeon (directory : Nat → UInt8) (bucketIdx hash : Nat) : Nat → UInt8 :=
  let mask := makeMaskNeon hash
  let data := loadBucket directory bucketIdx
  storeWords directory (32 * bucketIdx)
    (List.zipWith (· ||| ·) (data.take 4) mask.1 ++ List.zipWith (· ||| ·) (data.drop 4) mask.2)

/-- `BucketFind` on aarch64: the tests of both halves ANDed, read as two `int64_t` lanes
(their bit patterns here, `-1` being all ones) and ANDed again. -/
def bucketFindNeon (directory : Nat → UInt8) (bucketIdx hash : Nat) : Bool :=
  let mask := makeMaskNeon hash
  let data := loadBucket directory bucketIdx
  let t0 := vtstqU32 (data.take 4) mask.1
  let t1 := vtstqU32 (data.drop 4) mask.2
  let t := List.zipWith (· &&& ·) t0 t1
  let lane0 := t.getD 0 0 + 2 ^ 32 * t.getD 1 0
  let lane1 := t.getD 2 0 + 2 ^ 32 * t.getD 3 0
  lane0 &&& lane1 == 2 ^ 64 - 1

/-! ### Loads after stores -/

section Words

variable {directory : Nat → UInt8} {offset : Nat}

theorem readWord_eq (directory : Nat → UInt8) (offset : Nat) :
    readWord directory offset = ofBytes (readList directory offset 4) := rfl

theorem readWord_lt (directory : Nat → UInt8) (offset : Nat) : readWord directory offset < 2 ^ 32 := by
  have h := ofBytes_lt (readList directory offset 4)
  rw [length_readList] at h
  rw [readWord_eq]
  omega

theorem readWord_congr {directory' : Nat → UInt8}
    (h : ∀ k < 4, directory (offset + k) = directory' (offset + k)) :
    readWord directory offset = readWord directory' offset := by
  rw [readWord_eq, readWord_eq, readList_congr h]

theorem readWord_writeWord (w : Nat) : readWord (writeWord directory offset w) offset = w % 2 ^ 32 := by
  rw [readWord_eq, writeWord, readList_writeList_of_length (length_toBytes w 4), ofBytes_toBytes]
  norm_num

theorem writeWord_of_not_mem {x : Nat} (w : Nat) (h : x < offset ∨ offset + 4 ≤ x) :
    writeWord directory offset w x = directory x :=
  writeList_of_not_mem (by rw [length_toBytes]; exact h)

theorem storeWords_of_not_mem (ws : List Nat) {x : Nat} :
    ∀ {directory : Nat → UInt8} {offset : Nat}, (x < offset ∨ offset + 4 * ws.length ≤ x) →
      storeWords directory offset ws x = directory x := by
  induction ws with
  | nil => intro directory offset _; rfl
  | cons w ws ih =>
    intro directory offset h
    rw [storeWords, ih (by simp only [List.length_cons] at h; omega),
      writeWord_of_not_mem w (by simp only [List.length_cons] at h; omega)]

theorem loadWords_length (directory : Nat → UInt8) (offset n : Nat) :
    (loadWords directory offset n).length = n := by
  induction n generalizing offset with
  | zero => rfl
  | succ n ih => simp [loadWords, ih]

theorem loadWords_lt (directory : Nat → UInt8) (offset n : Nat) :
    ∀ w ∈ loadWords directory offset n, w < 2 ^ 32 := by
  induction n generalizing offset with
  | zero => simp [loadWords]
  | succ n ih =>
    intro w hw
    simp only [loadWords, List.mem_cons] at hw
    rcases hw with rfl | hw
    · exact readWord_lt directory offset
    · exact ih (offset + 4) w hw

theorem loadWords_congr {directory' : Nat → UInt8} (n : Nat) :
    ∀ {offset : Nat}, (∀ x, offset ≤ x → x < offset + 4 * n → directory x = directory' x) →
      loadWords directory offset n = loadWords directory' offset n := by
  induction n with
  | zero => intro offset _; rfl
  | succ n ih =>
    intro offset h
    rw [loadWords, loadWords, readWord_congr fun k hk => h _ (by omega) (by omega),
      ih fun x h1 h2 => h x (by omega) (by omega)]

theorem loadWords_storeWords (ws : List Nat) (hws : ∀ w ∈ ws, w < 2 ^ 32) :
    ∀ {directory : Nat → UInt8} {offset : Nat},
      loadWords (storeWords directory offset ws) offset ws.length = ws := by
  induction ws with
  | nil => intro directory offset; rfl
  | cons w ws ih =>
    intro directory offset
    have hw : w < 2 ^ 32 := hws w (by simp)
    have hfirst : readWord (storeWords (writeWord directory offset w) (offset + 4) ws) offset =
        readWord (writeWord directory offset w) offset :=
      readWord_congr fun k hk => storeWords_of_not_mem ws (Or.inl (by omega))
    rw [List.length_cons, storeWords, loadWords, hfirst, readWord_writeWord, Nat.mod_eq_of_lt hw,
      ih fun v hv => hws v (by simp [hv])]

theorem loadWords_storeWords_of_disjoint (ws : List Nat) {offset' n : Nat}
    (h : offset' + 4 * n ≤ offset ∨ offset + 4 * ws.length ≤ offset') :
    loadWords (storeWords directory offset ws) offset' n = loadWords directory offset' n :=
  loadWords_congr n fun _ h1 h2 => storeWords_of_not_mem ws (by omega)

theorem loadWords_add (directory : Nat → UInt8) (n k : Nat) :
    ∀ {offset : Nat}, loadWords directory offset (n + k) =
      loadWords directory offset n ++ loadWords directory (offset + 4 * n) k := by
  induction n with
  | zero => intro offset; simp [loadWords]
  | succ n ih =>
    intro offset
    rw [Nat.add_right_comm, loadWords, loadWords, ih, List.cons_append,
      show offset + 4 + 4 * n = offset + 4 * (n + 1) by omega]

theorem storeWords_append (as bs : List Nat) :
    ∀ {directory : Nat → UInt8} {offset : Nat},
      storeWords directory offset (as ++ bs) =
        storeWords (storeWords directory offset as) (offset + 4 * as.length) bs := by
  induction as with
  | nil => intro directory offset; rfl
  | cons a as ih =>
    intro directory offset
    rw [List.cons_append, storeWords, storeWords, ih, List.length_cons,
      show offset + 4 + 4 * as.length = offset + 4 * (as.length + 1) by omega]

theorem orStore_append (as bs : List Nat) :
    orStore (orStore directory offset as) (offset + 4 * as.length) bs =
      orStore directory offset (as ++ bs) := by
  have hlen : (List.zipWith (· ||| ·) (loadWords directory offset as.length) as).length =
      as.length := by
    simp [loadWords_length]
  have hsecond : loadWords (orStore directory offset as) (offset + 4 * as.length) bs.length =
      loadWords directory (offset + 4 * as.length) bs.length := by
    unfold orStore
    exact loadWords_storeWords_of_disjoint _ (Or.inr (by rw [hlen]))
  unfold orStore at hsecond ⊢
  rw [hsecond, List.length_append, loadWords_add, List.zipWith_append (by simp [loadWords_length]),
    storeWords_append, hlen]

theorem loadWords_orStore (lanes : List Nat) (hlanes : ∀ m ∈ lanes, m < 2 ^ 32) :
    loadWords (orStore directory offset lanes) offset lanes.length =
      List.zipWith (· ||| ·) (loadWords directory offset lanes.length) lanes := by
  have hlen : (List.zipWith (· ||| ·) (loadWords directory offset lanes.length) lanes).length =
      lanes.length := by
    simp [loadWords_length]
  have hlt : ∀ w ∈ List.zipWith (· ||| ·) (loadWords directory offset lanes.length) lanes,
      w < 2 ^ 32 := by
    intro w hw
    obtain ⟨i, hi, rfl⟩ := List.getElem_of_mem hw
    rw [List.getElem_zipWith]
    exact Nat.or_lt_two_pow (loadWords_lt _ _ _ _ (List.getElem_mem _)) (hlanes _ (List.getElem_mem _))
  have h : loadWords (storeWords directory offset _) offset _ = _ := loadWords_storeWords _ hlt
  rw [hlen] at h
  exact h

end Words

/-! ### Every version computes the mask of the specification -/

section Mask

theorem laneBit_lt (s hash : Nat) : (s * hash % 2 ^ 32) >>> 27 < 32 := by
  rw [Nat.shiftRight_eq_div_pow]
  have := Nat.mod_lt (s * hash) (Nat.two_pow_pos 32)
  omega

theorem specMask_length (hash : Nat) : (specMask hash).length = 8 := rfl

theorem specMask_lt (hash : Nat) : ∀ m ∈ specMask hash, m < 2 ^ 32 := by
  intro m hm
  obtain ⟨s, -, rfl⟩ := List.mem_map.1 hm
  exact Nat.pow_lt_pow_right Nat.one_lt_two (laneBit_lt s hash)

theorem specMask_ne_zero (hash : Nat) : ∀ m ∈ specMask hash, m ≠ 0 := by
  intro m hm
  obtain ⟨s, -, rfl⟩ := List.mem_map.1 hm
  exact (Nat.two_pow_pos _).ne'

theorem one_shiftLeft_mod {c : Nat} (hc : c < 32) : (1 <<< c) % 2 ^ 32 = 2 ^ c := by
  rw [Nat.one_shiftLeft, Nat.mod_eq_of_lt (Nat.pow_lt_pow_right Nat.one_lt_two hc)]

theorem newBucket_eq (hash : Nat) :
    (salt.map fun s => 1 <<< ((s * hash % 2 ^ 32) >>> 27)) = specMask hash := by
  simp only [specMask, Nat.one_shiftLeft]

theorem makeMaskAvx2_eq (hash : Nat) : makeMaskAvx2 hash = specMask hash := by
  refine List.ext_getElem rfl fun i h1 h2 => ?_
  simp only [makeMaskAvx2, sllvEpi32, srliEpi32, mulloEpi32, specMask, List.getElem_zipWith,
    List.getElem_map, List.getElem_replicate]
  rw [if_pos (laneBit_lt _ _), one_shiftLeft_mod (laneBit_lt _ _)]

theorem toSigned_laneBit (s hash : Nat) :
    toSigned 32 ((s * hash % 2 ^ 32) >>> 27 : Nat) = ((s * hash % 2 ^ 32) >>> 27 : Nat) :=
  toSigned_of_bounds (w := 31) (by omega) (by have := laneBit_lt s hash; omega)

theorem vshlqU32_ones (salts : List Nat) (hash : Nat) :
    vshlqU32 (List.replicate salts.length 1)
        ((srliEpi32 (mulloEpi32 salts (List.replicate salts.length hash)) 27).map
          fun (x : Nat) => toSigned 32 x) =
      salts.map fun s => 2 ^ ((s * hash % 2 ^ 32) >>> 27) := by
  induction salts with
  | nil => rfl
  | cons s salts ih =>
    simp only [vshlqU32, srliEpi32, mulloEpi32, List.length_cons, List.replicate_succ,
      List.zipWith_cons_cons, List.map_cons] at ih ⊢
    have hc := laneBit_lt s hash
    rw [ih, toSigned_laneBit, if_pos (by omega), if_pos (by omega), Int.toNat_natCast,
      one_shiftLeft_mod hc]

theorem makeMaskNeon_eq (hash : Nat) :
    makeMaskNeon hash = ((specMask hash).take 4, (specMask hash).drop 4) := by
  have h0 := vshlqU32_ones (salt.take 4) hash
  have h1 := vshlqU32_ones (salt.drop 4) hash
  simp only [List.length_take, List.length_drop, salt, List.length_cons, List.length_nil] at h0 h1
  simp only [makeMaskNeon, specMask]
  exact Prod.ext h0 h1

end Mask

/-! ### Every version inserts and finds as the specification -/

section Versions

variable (directory : Nat → UInt8) (bucketIdx hash : Nat)

theorem bucketInsert_eq :
    bucketInsert directory bucketIdx hash = orStore directory (32 * bucketIdx) (specMask hash) := by
  have h16 : 32 * bucketIdx + 16 = 32 * bucketIdx + 4 * ((specMask hash).take 4).length := by
    simp [specMask_length]
  rw [bucketInsert, newBucket_eq, h16, orStore_append, List.take_append_drop]

theorem bucketInsertAvx2_eq :
    bucketInsertAvx2 directory bucketIdx hash = orStore directory (32 * bucketIdx) (specMask hash) := by
  rw [bucketInsertAvx2, makeMaskAvx2_eq, orStore, specMask_length]
  rfl

theorem bucketInsertNeon_eq :
    bucketInsertNeon directory bucketIdx hash = orStore directory (32 * bucketIdx) (specMask hash) := by
  rw [bucketInsertNeon, makeMaskNeon_eq, ← List.take_zipWith, ← List.drop_zipWith,
    List.take_append_drop, orStore, specMask_length]
  rfl

omit directory bucketIdx hash in
theorem bucketHas_cons (w m : Nat) (ws ms : List Nat) :
    bucketHas (w :: ws) (m :: ms) = (decide (w &&& m ≠ 0) && bucketHas ws ms) := rfl

theorem bucketFindFrom_eq (salts : List Nat) (i : Nat) :
    (bucketFindFrom directory bucketIdx hash i salts).1 =
      bucketHas (loadWords directory (32 * bucketIdx + 4 * i) salts.length)
        (salts.map fun s => 2 ^ ((s * hash % 2 ^ 32) >>> 27)) := by
  induction salts generalizing i with
  | nil => rfl
  | cons s salts ih =>
    rw [bucketFindFrom, List.length_cons, loadWords, List.map_cons, bucketHas_cons, Nat.one_shiftLeft]
    split
    next h =>
      simp only [h, ne_eq, not_true_eq_false, decide_false, Bool.false_and]
    next h =>
      rw [ih, show 32 * bucketIdx + 4 * (i + 1) = 32 * bucketIdx + 4 * i + 4 by omega]
      simp only [h, ne_eq, not_false_eq_true, decide_true, Bool.true_and]

theorem bucketFind_eq :
    (bucketFind directory bucketIdx hash).1 = bucketHas (loadBucket directory bucketIdx) (specMask hash) :=
  bucketFindFrom_eq directory bucketIdx hash salt 0

omit directory bucketIdx hash in
theorem testc_lane {x c : Nat} (hx : x < 2 ^ 32) (hc : c < 32) :
    ((x ^^^ (2 ^ 32 - 1)) &&& 2 ^ c == 0) = decide (x &&& 2 ^ c ≠ 0) := by
  rw [xor_two_pow_sub_one hx, Nat.and_two_pow, Nat.and_two_pow, Nat.sub_sub, Nat.add_comm 1 x,
    Nat.testBit_two_pow_sub_succ hx]
  cases x.testBit c <;> simp [hc]

omit directory bucketIdx hash in
theorem testcSi256_eq (ws : List Nat) (hws : ∀ w ∈ ws, w < 2 ^ 32) :
    ∀ cs : List Nat, (∀ c ∈ cs, c < 32) →
      testcSi256 ws (cs.map (2 ^ ·)) = bucketHas ws (cs.map (2 ^ ·)) := by
  induction ws with
  | nil => intro cs _; rfl
  | cons w ws ih =>
    intro cs hcs
    cases cs with
    | nil => rfl
    | cons c cs =>
      have hw : w < 2 ^ 32 := hws w (by simp)
      have hc : c < 32 := hcs c (by simp)
      have hrest := ih (fun v hv => hws v (by simp [hv])) cs (fun d hd => hcs d (by simp [hd]))
      simp only [testcSi256, List.map_cons, List.zipWith_cons_cons, List.all_cons, id_eq] at hrest ⊢
      rw [hrest, testc_lane hw hc, bucketHas_cons]

theorem bucketFindAvx2_eq :
    bucketFindAvx2 directory bucketIdx hash = bucketHas (loadBucket directory bucketIdx) (specMask hash) := by
  have hmask : specMask hash = (salt.map fun s => (s * hash % 2 ^ 32) >>> 27).map (2 ^ ·) := by
    simp [specMask]
  rw [bucketFindAvx2, makeMaskAvx2_eq, hmask]
  refine testcSi256_eq _ (loadWords_lt _ _ _) _ ?_
  intro c hc
  obtain ⟨s, -, rfl⟩ := List.mem_map.1 hc
  exact laneBit_lt s hash

omit directory bucketIdx hash in
theorem ite_ones_and (p q : Prop) [Decidable p] [Decidable q] :
    ((if p then 2 ^ 32 - 1 else 0) &&& (if q then 2 ^ 32 - 1 else 0) : Nat) =
      if p ∧ q then 2 ^ 32 - 1 else 0 := by
  by_cases hp : p <;> by_cases hq : q <;> simp [hp, hq]

omit directory bucketIdx hash in
theorem int64_lanes_and (p0 p1 p2 p3 : Prop) [Decidable p0] [Decidable p1] [Decidable p2]
    [Decidable p3] :
    (((if p0 then 2 ^ 32 - 1 else 0) + 2 ^ 32 * (if p1 then 2 ^ 32 - 1 else 0)) &&&
        ((if p2 then 2 ^ 32 - 1 else 0) + 2 ^ 32 * (if p3 then 2 ^ 32 - 1 else 0)) == 2 ^ 64 - 1) =
      decide (p0 ∧ p1 ∧ p2 ∧ p3) := by
  by_cases h0 : p0 <;> by_cases h1 : p1 <;> by_cases h2 : p2 <;> by_cases h3 : p3 <;>
    simp [h0, h1, h2, h3]

theorem bucketFindNeon_eq :
    bucketFindNeon directory bucketIdx hash = bucketHas (loadBucket directory bucketIdx) (specMask hash) := by
  simp only [bucketFindNeon, makeMaskNeon_eq, loadBucket, loadWords, specMask, salt, List.map_cons,
    List.map_nil, List.take_succ_cons, List.take_zero, List.drop_succ_cons, List.drop_zero, vtstqU32,
    List.zipWith_cons_cons, List.zipWith_nil_left, List.getD_cons_zero, List.getD_cons_succ,
    ite_ones_and, int64_lanes_and, bucketHas, List.all_cons, List.all_nil]
  rw [Bool.eq_iff_iff]
  simp only [Bool.and_eq_true, decide_eq_true_eq, id_eq, and_true]
  constructor
  · rintro ⟨⟨h0, h4⟩, ⟨h1, h5⟩, ⟨h2, h6⟩, h3, h7⟩
    exact ⟨h0, h1, h2, h3, h4, h5, h6, h7⟩
  · rintro ⟨h0, h1, h2, h3, h4, h5, h6, h7⟩
    exact ⟨⟨h0, h4⟩, ⟨h1, h5⟩, ⟨h2, h6⟩, h3, h7⟩

end Versions

/-! ### `Insert` and `Find` -/

/-- The version of `BucketInsert` and `BucketFind` that `bucket_insert_func_ptr_` and
`bucket_find_func_ptr_` point to: the scalar one, the AVX2 one where the CPU has AVX2, or the
NEON one on aarch64. -/
inductive BucketImpl
  | scalar
  | avx2
  | neon
  deriving DecidableEq, Repr

def bucketInsertWith : BucketImpl → (Nat → UInt8) → Nat → Nat → Nat → UInt8
  | .scalar => bucketInsert
  | .avx2 => bucketInsertAvx2
  | .neon => bucketInsertNeon

def bucketFindWith : BucketImpl → (Nat → UInt8) → Nat → Nat → Bool
  | .scalar => fun directory bucketIdx hash => (bucketFind directory bucketIdx hash).1
  | .avx2 => bucketFindAvx2
  | .neon => bucketFindNeon

def insert (impl : BucketImpl) (f : ParquetBloomFilter) (directory : Nat → UInt8) (hash : UInt64) :
    ParquetBloomFilter × (Nat → UInt8) :=
  ({ f with alwaysFalse := false },
    bucketInsertWith impl directory (f.determineBucketIdx hash) (hash.toNat % 2 ^ 32))

def findWith (impl : BucketImpl) (f : ParquetBloomFilter) (directory : Nat → UInt8) (hash : UInt64) :
    Bool :=
  if f.alwaysFalse then false
  else bucketFindWith impl directory (f.determineBucketIdx hash) (hash.toNat % 2 ^ 32)

def insertAll (impl : BucketImpl) :
    ParquetBloomFilter × (Nat → UInt8) → List UInt64 → ParquetBloomFilter × (Nat → UInt8)
  | s, [] => s
  | (f, directory), hash :: hashes => insertAll impl (insert impl f directory hash) hashes

theorem bucketInsertWith_eq (impl : BucketImpl) (directory : Nat → UInt8) (bucketIdx hash : Nat) :
    bucketInsertWith impl directory bucketIdx hash = orStore directory (32 * bucketIdx) (specMask hash) := by
  cases impl
  · exact bucketInsert_eq directory bucketIdx hash
  · exact bucketInsertAvx2_eq directory bucketIdx hash
  · exact bucketInsertNeon_eq directory bucketIdx hash

theorem bucketFindWith_eq (impl : BucketImpl) (directory : Nat → UInt8) (bucketIdx hash : Nat) :
    bucketFindWith impl directory bucketIdx hash = bucketHas (loadBucket directory bucketIdx) (specMask hash) := by
  cases impl
  · exact bucketFind_eq directory bucketIdx hash
  · exact bucketFindAvx2_eq directory bucketIdx hash
  · exact bucketFindNeon_eq directory bucketIdx hash

theorem determineBucketIdx_eq (f : ParquetBloomFilter) (h32 : f.logNumBuckets ≤ 32) (hash : UInt64) :
    f.determineBucketIdx hash = ((hash.toNat >>> 32) * 2 ^ f.logNumBuckets) >>> 32 := by
  have htop : hash.toNat >>> 32 < 2 ^ 32 := by
    rw [Nat.shiftRight_eq_div_pow]
    have := UInt64.toNat_lt hash
    omega
  have h64 : (hash.toNat >>> 32) * 2 ^ f.logNumBuckets < 2 ^ 64 :=
    calc _ < 2 ^ 32 * 2 ^ f.logNumBuckets := Nat.mul_lt_mul_of_pos_right htop (Nat.two_pow_pos _)
      _ ≤ 2 ^ 32 * 2 ^ 32 := Nat.mul_le_mul_left _ (Nat.pow_le_pow_right Nat.two_pos h32)
      _ = 2 ^ 64 := by norm_num
  have h32' : ((hash.toNat >>> 32) * 2 ^ f.logNumBuckets) >>> 32 < 2 ^ 32 := by
    rw [Nat.shiftRight_eq_div_pow]
    omega
  unfold determineBucketIdx
  dsimp only
  rw [Nat.mod_eq_of_lt h64, Nat.mod_eq_of_lt h32']

/-! ### No false negatives -/

section Invariant

theorem bucketHas_or (ws ms : List Nat) (hws : bucketHas ws ms = true) :
    ∀ ms' : List Nat, bucketHas (List.zipWith (· ||| ·) ws ms') ms = true := by
  induction ws generalizing ms with
  | nil => intro ms'; rfl
  | cons w ws ih =>
    intro ms'
    cases ms with
    | nil => cases ms' <;> rfl
    | cons m ms =>
      cases ms' with
      | nil => rfl
      | cons m' ms' =>
        rw [bucketHas_cons, Bool.and_eq_true, decide_eq_true_eq] at hws
        rw [List.zipWith_cons_cons, bucketHas_cons, ih ms hws.2, Bool.and_true, decide_eq_true_eq,
          Nat.and_or_distrib_right]
        exact fun h => hws.1 (Nat.or_eq_zero_iff.1 h).1

theorem bucketHas_or_self (ws ms : List Nat) (hlen : ws.length = ms.length) (hms : ∀ m ∈ ms, m ≠ 0) :
    bucketHas (List.zipWith (· ||| ·) ws ms) ms = true := by
  induction ws generalizing ms with
  | nil => rfl
  | cons w ws ih =>
    cases ms with
    | nil => simp at hlen
    | cons m ms =>
      have hm : m ≠ 0 := hms m (by simp)
      rw [List.zipWith_cons_cons, bucketHas_cons, ih ms (by simpa using hlen)
        (fun v hv => hms v (by simp [hv])), Bool.and_true, decide_eq_true_eq,
        Nat.and_or_distrib_right, Nat.and_self]
      exact fun h => hm (Nat.or_eq_zero_iff.1 h).2

variable {directory : Nat → UInt8}

theorem loadBucket_orStore_self (bucketIdx hash : Nat) :
    loadBucket (orStore directory (32 * bucketIdx) (specMask hash)) bucketIdx =
      List.zipWith (· ||| ·) (loadBucket directory bucketIdx) (specMask hash) :=
  loadWords_orStore (specMask hash) (specMask_lt hash)

theorem loadBucket_orStore_of_ne {bucketIdx bucketIdx' : Nat} (h : bucketIdx ≠ bucketIdx') (hash : Nat) :
    loadBucket (orStore directory (32 * bucketIdx') (specMask hash)) bucketIdx =
      loadBucket directory bucketIdx := by
  have hlen : (List.zipWith (· ||| ·) (loadWords directory (32 * bucketIdx') (specMask hash).length)
      (specMask hash)).length = 8 := by
    simp [loadWords_length, specMask_length]
  unfold loadBucket orStore
  apply loadWords_storeWords_of_disjoint
  rw [hlen]
  omega

theorem bucketHas_orStore {bucketIdx : Nat} {mask : List Nat}
    (hhas : bucketHas (loadBucket directory bucketIdx) mask = true) (bucketIdx' hash : Nat) :
    bucketHas (loadBucket (orStore directory (32 * bucketIdx') (specMask hash)) bucketIdx) mask = true := by
  by_cases h : bucketIdx = bucketIdx'
  · subst h
    rw [loadBucket_orStore_self]
    exact bucketHas_or _ _ hhas _
  · rwa [loadBucket_orStore_of_ne h]

theorem bucketHas_orStore_self (bucketIdx hash : Nat) :
    bucketHas (loadBucket (orStore directory (32 * bucketIdx) (specMask hash)) bucketIdx)
      (specMask hash) = true := by
  rw [loadBucket_orStore_self]
  exact bucketHas_or_self _ _ (by rw [loadBucket, loadWords_length, specMask_length])
    (specMask_ne_zero hash)

def Holds (f : ParquetBloomFilter) (directory : Nat → UInt8) (hash : UInt64) : Prop :=
  bucketHas (loadBucket directory (f.determineBucketIdx hash)) (specMask (hash.toNat % 2 ^ 32)) = true

variable (impl : BucketImpl)

theorem holds_insert {f : ParquetBloomFilter} {hash : UInt64} (h : Holds f directory hash)
    (hash' : UInt64) : Holds (insert impl f directory hash').1 (insert impl f directory hash').2 hash := by
  unfold Holds insert
  rw [bucketInsertWith_eq]
  exact bucketHas_orStore h _ _

theorem holds_insert_self (f : ParquetBloomFilter) (hash : UInt64) :
    Holds (insert impl f directory hash).1 (insert impl f directory hash).2 hash := by
  unfold Holds insert
  rw [bucketInsertWith_eq]
  exact bucketHas_orStore_self _ _

theorem insertAll_holds (hashes : List UInt64) :
    ∀ {f : ParquetBloomFilter} {directory : Nat → UInt8} {hash : UInt64}, Holds f directory hash →
      Holds (insertAll impl (f, directory) hashes).1 (insertAll impl (f, directory) hashes).2 hash := by
  induction hashes with
  | nil => intro f directory hash h; exact h
  | cons hash' hashes ih =>
    intro f directory hash h
    exact ih (holds_insert impl h hash')

theorem insertAll_alwaysFalse (hashes : List UInt64) (hne : hashes ≠ []) :
    ∀ {f : ParquetBloomFilter} {directory : Nat → UInt8},
      (insertAll impl (f, directory) hashes).1.alwaysFalse = false := by
  induction hashes with
  | nil => exact absurd rfl hne
  | cons hash hashes ih =>
    intro f directory
    cases hashes with
    | nil => rfl
    | cons _ _ => exact ih (List.cons_ne_nil _ _)

theorem insertAll_holds_mem (hashes : List UInt64) :
    ∀ {f : ParquetBloomFilter} {directory : Nat → UInt8}, ∀ hash ∈ hashes,
      Holds (insertAll impl (f, directory) hashes).1 (insertAll impl (f, directory) hashes).2 hash := by
  induction hashes with
  | nil => intro f directory hash h; simp at h
  | cons hash' hashes ih =>
    intro f directory hash h
    rcases List.mem_cons.1 h with rfl | h
    · exact insertAll_holds impl hashes (holds_insert_self impl f hash)
    · exact ih hash h

theorem findWith_of_holds {f : ParquetBloomFilter} {hash : UInt64} (hf : f.alwaysFalse = false)
    (h : Holds f directory hash) : findWith impl f directory hash = true := by
  rw [findWith, hf, if_neg Bool.false_ne_true, bucketFindWith_eq]
  exact h

end Invariant

/-- For a power-of-two directory from `MIN_BYTES` to `MAX_BYTES`, `Init` succeeds with
`log2(dir_size) - 5` as the log of the number of buckets; after any sequence of `Insert`s from an
all-zero directory, `Find` is true for every hash inserted; `Insert` ORs into the bucket
`((hash >> 32) * num_buckets) >> 32` of the directory the mask with bit
`((SALT[i] * (uint32_t) hash) mod 2^32) >> 27` in word `i`, and changes no other byte; and the
scalar, AVX2 and NEON buckets store the same words and answer the same. -/
theorem bloom_filter_insert_find (k : Nat) (hk : 6 ≤ k ∧ k ≤ 27) (alwaysFalse : Bool) :
    ∃ f, init (2 ^ k) alwaysFalse = .ok f ∧ f.logNumBuckets = k - 5 ∧
      (∀ (impl : BucketImpl) (hashes : List UInt64), ∀ hash ∈ hashes,
        findWith impl (insertAll impl (f, fun _ => 0) hashes).1
          (insertAll impl (f, fun _ => 0) hashes).2 hash = true) ∧
      (∀ (impl : BucketImpl) (directory : Nat → UInt8) (hash : UInt64),
        f.determineBucketIdx hash = ((hash.toNat >>> 32) * 2 ^ (k - 5)) >>> 32 ∧
        32 * f.determineBucketIdx hash + 32 ≤ 2 ^ k ∧
        loadBucket (insert impl f directory hash).2 (f.determineBucketIdx hash) =
          List.zipWith (· ||| ·) (loadBucket directory (f.determineBucketIdx hash))
            (salt.map fun s => 2 ^ ((s * (hash.toNat % 2 ^ 32) % 2 ^ 32) >>> 27)) ∧
        ∀ x, x < 32 * f.determineBucketIdx hash ∨ 32 * f.determineBucketIdx hash + 32 ≤ x →
          (insert impl f directory hash).2 x = directory x) ∧
      (∀ (impl impl' : BucketImpl) (directory : Nat → UInt8) (bucketIdx hash : Nat),
        bucketInsertWith impl directory bucketIdx hash =
          bucketInsertWith impl' directory bucketIdx hash ∧
        bucketFindWith impl directory bucketIdx hash = bucketFindWith impl' directory bucketIdx hash) := by
  have hlog : Nat.log2 (2 ^ k) ≤ 37 := by rw [Nat.log2_two_pow]; omega
  have hf : init (2 ^ k) alwaysFalse = .ok ⟨k - 5, alwaysFalse⟩ := by
    rw [init_eq hlog, Nat.log2_two_pow]
    congr 2
    simp only [kLogBucketByteSize]
    omega
  refine ⟨_, hf, rfl, ?_, ?_, ?_⟩
  · intro impl hashes hash hmem
    have hne : hashes ≠ [] := List.ne_nil_of_mem hmem
    exact findWith_of_holds impl (insertAll_alwaysFalse impl hashes hne)
      (insertAll_holds_mem impl hashes hash hmem)
  · intro impl directory hash
    have h32 : (⟨k - 5, alwaysFalse⟩ : ParquetBloomFilter).logNumBuckets ≤ 32 := by
      show k - 5 ≤ 32
      omega
    have hlt := determineBucketIdx_lt _ h32 hash
    have hsize : 32 * 2 ^ (k - 5) = 2 ^ k := by
      rw [show (32 : Nat) = 2 ^ 5 from rfl, ← Nat.pow_add]
      congr 1
      omega
    refine ⟨determineBucketIdx_eq _ h32 hash, ?_, ?_, ?_⟩
    · have : (⟨k - 5, alwaysFalse⟩ : ParquetBloomFilter).logNumBuckets = k - 5 := rfl
      rw [this] at hlt
      omega
    · rw [insert, bucketInsertWith_eq, loadBucket_orStore_self]
      rfl
    · intro x hx
      rw [insert, bucketInsertWith_eq, orStore]
      exact storeWords_of_not_mem _ (by simpa [loadWords_length, specMask_length] using hx)
  · intro impl impl' directory bucketIdx hash
    rw [bucketInsertWith_eq, bucketInsertWith_eq, bucketFindWith_eq, bucketFindWith_eq]
    exact ⟨rfl, rfl⟩

theorem bloom_filter_insert_find_min_bytes :
    (6 ≤ 6 ∧ 6 ≤ 27) ∧
      findWith .avx2 (insertAll .avx2 (⟨1, true⟩, fun _ => 0) [0x9E3779B97F4A7C15]).1
        (insertAll .avx2 (⟨1, true⟩, fun _ => 0) [0x9E3779B97F4A7C15]).2
        0x9E3779B97F4A7C15 = true := by
  refine ⟨⟨le_refl 6, by norm_num⟩, ?_⟩
  obtain ⟨f, hinit, -, hfind, -⟩ := bloom_filter_insert_find 6 ⟨le_refl 6, by norm_num⟩ true
  have hf : f = ⟨1, true⟩ := by
    have hinit' : init (2 ^ 6) true = .ok ⟨1, true⟩ := by
      rw [init_eq (by rw [Nat.log2_two_pow]; omega), Nat.log2_two_pow]
      rfl
    exact Except.ok.inj (hinit.symm.trans hinit')
  subst hf
  exact hfind .avx2 _ _ (List.mem_singleton_self _)

end ParquetBloomFilter

end Impala