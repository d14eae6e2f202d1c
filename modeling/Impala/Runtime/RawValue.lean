import Impala.Lib.FloatBits
import Impala.Runtime.StringValue
import Impala.Exprs.DecimalAggregates

/-!
Values of the scalar column types as the backend holds them (runtime/types.h,
runtime/raw-value.h, raw-value.inline.h, raw-value.cc).

A non-NULL value is what `GetValue` points at: the bytes of a fixed-width value, in
memory order, or the string a `StringValue` points to. A `TIMESTAMP` is the 12
bytes of its `time_` and `date_` in a 16-byte slot. `float` and `double` are IEEE
encodings; `==` on them is IEEE equality, which `CanonicalValue` makes agree with
equality of bytes by rewriting every NaN to one quiet NaN and `-0.0` to `+0.0`.
-/

set_option autoImplicit false

namespace Impala

open FloatBits

/-- The `PrimitiveType` of a scalar `ColumnType`, with the `len` of a `CHAR` and the
`precision` of a `DECIMAL`. -/
inductive ColumnType
  | boolean | tinyint | smallint | int | bigint | float | double | date | timestamp
  | string | varchar
  | char (len : Nat)
  | decimal (precision : Nat)
  deriving DecidableEq, Repr

namespace ColumnType

def getByteSize : ColumnType → Nat
  | .boolean | .tinyint => 1
  | .smallint => 2
  | .int | .date | .float => 4
  | .bigint | .double => 8
  | .timestamp => 16
  | .string | .varchar => 0
  | .char len => len
  | .decimal precision => AggregateFunctions.getDecimalByteSize precision

def getSlotSize : ColumnType → Nat
  | .string | .varchar => 12
  | t => t.getByteSize

def isVarLenStringType : ColumnType → Bool
  | .string | .varchar => true
  | _ => false

/-- The bytes of a value of a fixed-width type: `TimestampValue::Size()` of a
timestamp, the byte size of the others. -/
def dataSize : ColumnType → Nat
  | .timestamp => 12
  | t => t.getByteSize

end ColumnType

/-- A non-NULL value as `GetValue` points at it. -/
inductive Value
  | fixed (bytes : Bytes)
  | string (s : Bytes)
  deriving DecidableEq, Repr

namespace Value

def fixedBytes : Value → Bytes
  | .fixed b => b
  | .string _ => []

def stringBytes : Value → Bytes
  | .fixed _ => []
  | .string s => s

def bits (w : Nat) (v : Value) : Nat := leNat (v.fixedBytes.take w)

/-- A value of the type: a string for the string types, the type's bytes for the
others. -/
def fits (t : ColumnType) : Value → Bool
  | .fixed b => !t.isVarLenStringType && b.length == t.dataSize
  | .string _ => t.isVarLenStringType

end Value

namespace RawValue

def canonicalFloatNaN : Bytes := [0x00, 0x00, 0xc0, 0x7f]

def canonicalDoubleNaN : Bytes := [0x00, 0x00, 0x00, 0x00, 0x00, 0x00, 0xf8, 0x7f]

def isNaN (v : Value) (t : ColumnType) : Bool :=
  match t with
  | .float => FloatBits.isNaN .single (v.bits 4)
  | .double => FloatBits.isNaN .double (v.bits 8)
  | _ => false

def isFloatingZero (v : Value) (t : ColumnType) : Bool :=
  match t with
  | .float => feq .single (v.bits 4) 0
  | .double => feq .double (v.bits 8) 0
  | _ => false

/-- `RawValue::CanonicalNaNValue`; asked for floating types only. -/
def canonicalNaNValue : ColumnType → Value
  | .double => .fixed canonicalDoubleNaN
  | _ => .fixed canonicalFloatNaN

/-- `RawValue::PositiveFloatingZero`; asked for floating types only. -/
def positiveFloatingZero : ColumnType → Value
  | .double => .fixed (List.replicate 8 0)
  | _ => .fixed (List.replicate 4 0)

def canonicalValue (v : Value) (t : ColumnType) : Value :=
  if isNaN v t then canonicalNaNValue t
  else if isFloatingZero v t then positiveFloatingZero t
  else v

/-- `RawValue::Eq` of the values at two pointers: integers, booleans, dates and
decimals by their bytes, a timestamp by `time_` and `date_`, floats by IEEE `==`,
strings by `StringValue::Eq`, and `CHAR`s by `StringCompare` without their
trailing spaces. -/
def eq (v1 v2 : Value) (t : ColumnType) : Bool :=
  match t with
  | .float => feq .single (v1.bits 4) (v2.bits 4)
  | .double => feq .double (v1.bits 8) (v2.bits 8)
  | .string | .varchar => StringValue.eq v1.stringBytes v2.stringBytes
  | .char len =>
    let s1 := v1.fixedBytes.take len
    let s2 := v2.fixedBytes.take len
    let l1 := StringValue.unpaddedCharLength s1
    let l2 := StringValue.unpaddedCharLength s2
    StringValue.stringCompare (s1.take l1) (s2.take l2) (min l1 l2) == .eq
  | t => v1.fixedBytes.take t.dataSize == v2.fixedBytes.take t.dataSize

/-- `RawValue::WriteNonNullPrimitive` without a pool: what the slot holds after the
copy. A `StringValue` is assigned, so the slot points at the same string; copying
the `StringValue` read from other memory copies its 12 bytes. A timestamp copies
`time_` and `date_`, and the slot keeps the zeros of its last 4 bytes. -/
def writeNonNullPrimitive (v : Value) (t : ColumnType) : Value :=
  match t, v with
  | .string, .string s | .varchar, .string s => .string s
  | .string, .fixed b | .varchar, .fixed b => .fixed (b.take 12)
  | .timestamp, .fixed b => .fixed (b.take 12 ++ List.replicate 4 0)
  | t, .fixed b => .fixed (b.take t.getByteSize)
  | _, .string s => .string s

/-! ## Canonical values -/

section Canonical

def canonicalBytes (f : Format) (w : Nat) (nan b : Bytes) : Bytes :=
  if FloatBits.isNaN f (leNat b) then nan
  else if feq f (leNat b) 0 then List.replicate w 0
  else b

variable {f : Format} {w : Nat} {nan : Bytes}

theorem bits_fixed {b : Bytes} (hb : b.length = w) : (Value.fixed b).bits w = leNat b := by
  rw [Value.bits, Value.fixedBytes, List.take_of_length_le (Nat.le_of_eq hb)]

theorem length_canonicalBytes {b : Bytes} (hn : nan.length = w) (hb : b.length = w) :
    (canonicalBytes f w nan b).length = w := by
  unfold canonicalBytes
  split_ifs <;> simp [hn, hb]

theorem leNat_canonicalBytes (b : Bytes) :
    leNat (canonicalBytes f w nan b) = canon f (leNat nan) (leNat b) := by
  unfold canonicalBytes canon
  split_ifs <;> simp [leNat_replicate_zero]

theorem canonicalBytes_eq {x y : Bytes} (hn : nan.length = w) (hx : x.length = w)
    (hy : y.length = w) (hnan : FloatBits.isNaN f (leNat nan) = true)
    (h0 : FloatBits.isNaN f 0 = false)
    (h : feq f (leNat (canonicalBytes f w nan x)) (leNat y) = true ∨
      (FloatBits.isNaN f (leNat y) = true ∧
        FloatBits.isNaN f (leNat (canonicalBytes f w nan x)) = true)) :
    canonicalBytes f w nan x = canonicalBytes f w nan y := by
  rw [leNat_canonicalBytes] at h
  have hcanon := canon_eq_of_feq hnan h0 h
  apply leNat_inj (by rw [length_canonicalBytes hn hx, length_canonicalBytes hn hy])
  rw [leNat_canonicalBytes, leNat_canonicalBytes, hcanon]

theorem canonicalValue_float {x : Bytes} (hx : x.length = 4) :
    canonicalValue (.fixed x) .float = .fixed (canonicalBytes .single 4 canonicalFloatNaN x) := by
  simp only [canonicalValue, isNaN, isFloatingZero, bits_fixed hx, canonicalBytes]
  split_ifs <;> rfl

theorem canonicalValue_double {x : Bytes} (hx : x.length = 8) :
    canonicalValue (.fixed x) .double =
      .fixed (canonicalBytes .double 8 canonicalDoubleNaN x) := by
  simp only [canonicalValue, isNaN, isFloatingZero, bits_fixed hx, canonicalBytes]
  split_ifs <;> rfl

theorem canonicalValue_of_ne (v : Value) {t : ColumnType} (hf : t ≠ .float)
    (hd : t ≠ .double) : canonicalValue v t = v := by
  cases t <;> first | exact absurd rfl hf | exact absurd rfl hd | rfl

theorem isNaN_canonicalFloatNaN : FloatBits.isNaN .single (leNat canonicalFloatNaN) = true := by
  decide

theorem isNaN_canonicalDoubleNaN :
    FloatBits.isNaN .double (leNat canonicalDoubleNaN) = true := by
  decide

theorem write_canonical_floating {t : ColumnType} {x y : Bytes} (hn : nan.length = w)
    (hx : x.length = w) (hy : y.length = w) (hnan : FloatBits.isNaN f (leNat nan) = true)
    (h0 : FloatBits.isNaN f 0 = false)
    (hcanon : ∀ z : Bytes, z.length = w → canonicalValue (.fixed z) t = .fixed (canonicalBytes f w nan z))
    (hwrite : ∀ z : Bytes, writeNonNullPrimitive (.fixed z) t = .fixed (z.take w))
    (heq : ∀ v1 v2 : Value, eq v1 v2 t = feq f (v1.bits w) (v2.bits w))
    (hisNaN : ∀ v : Value, isNaN v t = FloatBits.isNaN f (v.bits w))
    (h : eq (writeNonNullPrimitive (canonicalValue (.fixed x) t) t) (.fixed y) t = true ∨
      (isNaN (.fixed y) t = true ∧
        isNaN (writeNonNullPrimitive (canonicalValue (.fixed x) t) t) t = true)) :
    writeNonNullPrimitive (canonicalValue (.fixed x) t) t =
      writeNonNullPrimitive (canonicalValue (.fixed y) t) t := by
  have hlx := length_canonicalBytes (f := f) hn hx
  have hly := length_canonicalBytes (f := f) hn hy
  rw [hcanon x hx, hcanon y hy, hwrite, hwrite, List.take_of_length_le (Nat.le_of_eq hlx),
    List.take_of_length_le (Nat.le_of_eq hly)] at *
  rw [heq, hisNaN, hisNaN, bits_fixed hlx, bits_fixed hy] at h
  rw [canonicalBytes_eq hn hx hy hnan h0 h]

theorem isNaN_of_ne (v : Value) {t : ColumnType} (hf : t ≠ .float) (hd : t ≠ .double) :
    isNaN v t = false := by
  cases t <;> first | exact absurd rfl hf | exact absurd rfl hd | rfl

theorem write_canonical_padded {t : ColumnType} (n : Nat) (pad : Bytes) {x y : Bytes}
    (hf : t ≠ .float) (hd : t ≠ .double) (hx : x.length = n)
    (hwrite : ∀ z : Bytes, writeNonNullPrimitive (.fixed z) t = .fixed (z.take n ++ pad))
    (heq : ∀ v1 v2 : Value, eq v1 v2 t = (v1.fixedBytes.take n == v2.fixedBytes.take n))
    (h : eq (writeNonNullPrimitive (canonicalValue (.fixed x) t) t) (.fixed y) t = true ∨
      (isNaN (.fixed y) t = true ∧
        isNaN (writeNonNullPrimitive (canonicalValue (.fixed x) t) t) t = true)) :
    writeNonNullPrimitive (canonicalValue (.fixed x) t) t =
      writeNonNullPrimitive (canonicalValue (.fixed y) t) t := by
  rw [canonicalValue_of_ne _ hf hd, canonicalValue_of_ne _ hf hd, hwrite, hwrite]
  rw [canonicalValue_of_ne _ hf hd, isNaN_of_ne _ hf hd] at h
  have hxn : x.take n = x := List.take_of_length_le (Nat.le_of_eq hx)
  rcases h with h | ⟨h, -⟩
  · rw [hwrite, heq] at h
    simp only [Value.fixedBytes, hxn, List.take_append, hx, Nat.sub_self, List.take_zero,
      List.append_nil, beq_iff_eq] at h
    rw [hxn, ← h]
  · cases h

theorem write_canonical_char {len : Nat} {x y : Bytes} (hx : x.length = len)
    (hy : y.length = len)
    (h : eq (writeNonNullPrimitive (canonicalValue (.fixed x) (.char len)) (.char len))
        (.fixed y) (.char len) = true ∨
      (isNaN (.fixed y) (.char len) = true ∧
        isNaN (writeNonNullPrimitive (canonicalValue (.fixed x) (.char len)) (.char len))
          (.char len) = true)) :
    writeNonNullPrimitive (canonicalValue (.fixed x) (.char len)) (.char len) =
      writeNonNullPrimitive (canonicalValue (.fixed y) (.char len)) (.char len) := by
  have hcx : canonicalValue (.fixed x) (.char len) = .fixed x :=
    canonicalValue_of_ne _ (by simp) (by simp)
  have hcy : canonicalValue (.fixed y) (.char len) = .fixed y :=
    canonicalValue_of_ne _ (by simp) (by simp)
  have hwx : writeNonNullPrimitive (.fixed x) (.char len) = .fixed x := by
    simp [writeNonNullPrimitive, ColumnType.getByteSize, ← hx]
  have hwy : writeNonNullPrimitive (.fixed y) (.char len) = .fixed y := by
    simp [writeNonNullPrimitive, ColumnType.getByteSize, ← hy]
  rw [hcx, hwx] at h
  rw [hcx, hcy, hwx, hwy]
  rcases h with h | ⟨h, -⟩
  · simp only [eq, Value.fixedBytes, List.take_of_length_le (Nat.le_of_eq hx),
      List.take_of_length_le (Nat.le_of_eq hy), beq_iff_eq] at h
    rw [StringValue.eq_of_unpadded_compare (hx.trans hy.symm) h]
  · simp [isNaN] at h

theorem write_canonical_eq {t : ColumnType} {a b : Value} (ha : a.fits t = true)
    (hb : b.fits t = true)
    (h : eq (writeNonNullPrimitive (canonicalValue a t) t) b t = true ∨
      (isNaN b t = true ∧ isNaN (writeNonNullPrimitive (canonicalValue a t) t) t = true)) :
    writeNonNullPrimitive (canonicalValue a t) t =
      writeNonNullPrimitive (canonicalValue b t) t := by
  cases a with
  | string s1 =>
    cases b with
    | fixed y =>
      simp only [Value.fits] at ha hb
      simp [ha] at hb
    | string s2 =>
      cases t <;> simp only [Value.fits, ColumnType.isVarLenStringType] at ha <;> cases ha <;>
        simpa [writeNonNullPrimitive, canonicalValue, isNaN, isFloatingZero, eq,
          Value.stringBytes, StringValue.eq_iff] using h
  | fixed x =>
    cases b with
    | string s2 =>
      simp only [Value.fits] at ha hb
      simp [hb] at ha
    | fixed y =>
      simp only [Value.fits, Bool.and_eq_true, Bool.not_eq_true', beq_iff_eq] at ha hb
      obtain ⟨hvx, hx⟩ := ha
      obtain ⟨-, hy⟩ := hb
      cases t with
      | float =>
        exact write_canonical_floating (w := 4) (show canonicalFloatNaN.length = 4 from rfl)
          hx hy isNaN_canonicalFloatNaN (by decide)
          (fun _ hz => canonicalValue_float hz) (fun _ => rfl) (fun _ _ => rfl) (fun _ => rfl) h
      | double =>
        exact write_canonical_floating (w := 8) (show canonicalDoubleNaN.length = 8 from rfl)
          hx hy isNaN_canonicalDoubleNaN (by decide)
          (fun _ hz => canonicalValue_double hz) (fun _ => rfl) (fun _ _ => rfl) (fun _ => rfl) h
      | string | varchar => cases hvx
      | char len => exact write_canonical_char hx hy h
      | timestamp =>
        exact write_canonical_padded 12 (List.replicate 4 0) (by simp) (by simp) hx
          (fun _ => rfl) (fun _ _ => rfl) h
      | boolean | tinyint | smallint | int | bigint | date | decimal =>
        exact write_canonical_padded _ [] (by simp) (by simp) hx
          (fun _ => by simp [writeNonNullPrimitive, ColumnType.dataSize]) (fun _ _ => rfl) h

end Canonical

/-! ## Comparison -/

section Compare

open MachineInt

def ofOrdering : Ordering → Int
  | .lt => -1
  | .eq => 0
  | .gt => 1

def compareInt (x y : Int) : Int := if x > y then 1 else if x < y then -1 else 0

def compareDecimal (x y : Int) : Int := if x = y then 0 else if x < y then -1 else 1

/-- The `FLOAT` and `DOUBLE` case: a NaN below everything else and equal to a NaN, then IEEE
order. -/
def compareFloating (f : Format) (x y : Nat) : Int :=
  if FloatBits.isNaN f x && FloatBits.isNaN f y then 0
  else if FloatBits.isNaN f x then -1
  else if FloatBits.isNaN f y then 1
  else if flt f y x then 1 else if flt f x y then -1 else 0

theorem compareFloating_two_pow (f : Format) (x : Nat) :
    compareFloating f x (2 ^ (f.expBits + f.manBits)) = compareFloating f x 0 := by
  simp only [compareFloating, isNaN_two_pow, isNaN_zero, flt_two_pow_left, flt_two_pow_right]

theorem compareFloating_zero_of_flt {f : Format} {x : Nat} (h : flt f x 0 = true) :
    compareFloating f x 0 = -1 := by
  have hkey : orderKey f x < orderKey f 0 := by simp [flt] at h; exact h.2
  have hx : FloatBits.isNaN f x = false := by simp [flt] at h; exact h.1.1
  have h0 : flt f 0 x = false := by simp [flt]; omega
  simp [compareFloating, hx, isNaN_zero, h0, h]

def boolValue (v : Value) : Int := if v.bits 1 = 0 then 0 else 1

def dayNumber (v : Value) : Nat := leNat ((v.fixedBytes.drop 8).take 4)

def nanoseconds (v : Value) : Int := toSigned 64 (v.bits 8)

/-- `RawValue::Compare` of two non-NULL values of a type; the string comparisons are taken by
their sign. -/
def compare (v1 v2 : Value) (t : ColumnType) : Int :=
  match t with
  | .boolean => boolValue v1 - boolValue v2
  | .tinyint => toSigned 8 (v1.bits 1) - toSigned 8 (v2.bits 1)
  | .smallint => toSigned 16 (v1.bits 2) - toSigned 16 (v2.bits 2)
  | .int | .date => compareInt (toSigned 32 (v1.bits 4)) (toSigned 32 (v2.bits 4))
  | .bigint => compareInt (toSigned 64 (v1.bits 8)) (toSigned 64 (v2.bits 8))
  | .float => compareFloating .single (v1.bits 4) (v2.bits 4)
  | .double => compareFloating .double (v1.bits 8) (v2.bits 8)
  | .string | .varchar => ofOrdering (StringValue.compare v1.stringBytes v2.stringBytes)
  | .timestamp =>
    if dayNumber v1 > dayNumber v2 ∨ (dayNumber v1 = dayNumber v2 ∧ nanoseconds v1 > nanoseconds v2)
    then 1
    else if dayNumber v1 < dayNumber v2 ∨
      (dayNumber v1 = dayNumber v2 ∧ nanoseconds v1 < nanoseconds v2) then -1
    else 0
  | .char len =>
    let s1 := v1.fixedBytes.take len
    let s2 := v2.fixedBytes.take len
    let l1 := StringValue.unpaddedCharLength s1
    let l2 := StringValue.unpaddedCharLength s2
    ofOrdering (StringValue.stringCompare (s1.take l1) (s2.take l2) (min l1 l2))
  | .decimal precision =>
    match AggregateFunctions.getDecimalByteSize precision with
    | 4 => compareDecimal (toSigned 32 (v1.bits 4)) (toSigned 32 (v2.bits 4))
    | 8 => compareDecimal (toSigned 64 (v1.bits 8)) (toSigned 64 (v2.bits 8))
    | 16 => compareDecimal (toSigned 128 (v1.bits 16)) (toSigned 128 (v2.bits 16))
    | _ => 0

theorem compare_self (v : Value) (t : ColumnType) : compare v v t = 0 := by
  cases t with
  | float | double =>
    simp only [compare, compareFloating, flt, lt_self_iff_false, decide_false, Bool.and_false]
    split_ifs <;> simp_all
  | string | varchar => simp [compare, StringValue.compare_self, ofOrdering]
  | char len => simp [compare, StringValue.stringCompare_self, ofOrdering]
  | decimal precision =>
    simp only [compare]
    split <;> simp [compareDecimal]
  | _ => simp [compare, compareInt]

end Compare

end RawValue

end Impala
