import Impala.Lib.Memory

/-!
Tuples in memory (runtime/tuple.h, tuple.cc, descriptors.h, smallable-string.h,
collection-value.h). A tuple is the `byte_size` bytes of its descriptor from its
address. Its string and collection slots hold a `StringValue` and a
`CollectionValue` whose data lies elsewhere: the bytes of a long string at its
pointer, the item tuples of a collection one after another at its pointer.

Memory is a function from addresses to cells. A cell is a byte or, at the offset
of a string or collection slot, the whole value the slot holds: the code reads and
writes such a slot only as a whole (`GetStringSlot`, `GetCollectionSlot`), so the
other bytes of the slot are cells that are copied and never read.

The copy is the one `RowBatch::Serialize` makes (`DeepCopy` with `convert_ptrs`):
the pointers it leaves are offsets into the output buffer, which
`ConvertOffsetsToPointers` turns back into pointers on the receiving side.
-/

set_option autoImplicit false

namespace Impala

open Memory

/-- `SmallableString`: up to `SMALL_LIMIT` bytes kept inline, or a pointer and a
length. -/
inductive SmallableString
  | small (buf : List UInt8)
  | long (ptr len : Nat)
  deriving DecidableEq, Repr

/-- `CollectionValue`: `num_tuples` item tuples from `ptr`. -/
structure CollectionValue where
  ptr : Nat
  numTuples : Nat
  deriving DecidableEq, Repr

/-- One cell of memory. -/
inductive Cell
  | byte (b : UInt8)
  | str (v : SmallableString)
  | coll (v : CollectionValue)
  deriving DecidableEq, Repr

/-- Memory, from addresses to cells. -/
abbrev Mem := Nat → Cell

namespace Cell

def toByte : Cell → UInt8
  | .byte b => b
  | _ => 0

def stringValue : Cell → SmallableString
  | .str v => v
  | _ => .long 0 0

def collectionValue : Cell → CollectionValue
  | .coll v => v
  | _ => ⟨0, 0⟩

end Cell

def bytesAt (m : Mem) (ptr len : Nat) : List UInt8 :=
  (readList m ptr len).map Cell.toByte

namespace SmallableString

def smallLimit : Nat := 11

def isSmall : SmallableString → Bool
  | .small _ => true
  | .long _ _ => false

def len : SmallableString → Nat
  | .small buf => buf.length
  | .long _ len => len

/-- `Ptr()` of a long string; the model never reads it of a small one. -/
def ptr : SmallableString → Nat
  | .small _ => 0
  | .long ptr _ => ptr

def externalLen (assumeSmallify : Bool) : SmallableString → Nat
  | .small _ => 0
  | .long _ len => if assumeSmallify && len ≤ smallLimit then 0 else len

/-- `Smallify()`: whether the string is small afterwards, and the string. A long
string of at most `SMALL_LIMIT` bytes takes them inline. -/
def smallify (m : Mem) : SmallableString → Bool × SmallableString
  | .small buf => (true, .small buf)
  | .long ptr len => if len > smallLimit then (false, .long ptr len)
    else (true, .small (bytesAt m ptr len))

def setPtr (p : Nat) : SmallableString → SmallableString
  | .small buf => .small buf
  | .long _ len => .long p len

def bytes (m : Mem) : SmallableString → List UInt8
  | .small buf => buf
  | .long ptr len => bytesAt m ptr len

end SmallableString

/-- `NullIndicatorOffset`. -/
structure NullIndicatorOffset where
  byteOffset : Nat
  bitMask : UInt8
  deriving DecidableEq, Repr

/-- The fields of a `SlotDescriptor` that a copy reads. -/
structure SlotDescriptor where
  tupleOffset : Nat
  nullIndicatorOffset : NullIndicatorOffset
  deriving DecidableEq, Repr

/-- The fields of a `TupleDescriptor` that a copy reads: `byte_size_`,
`string_slots_`, and `collection_slots_`, each with the descriptor of its items. -/
inductive TupleDescriptor
  | mk (byteSize : Nat) (stringSlots : List SlotDescriptor)
      (collectionSlots : List (SlotDescriptor × TupleDescriptor))

namespace TupleDescriptor

def byteSize : TupleDescriptor → Nat
  | .mk byteSize _ _ => byteSize

def stringSlots : TupleDescriptor → List SlotDescriptor
  | .mk _ stringSlots _ => stringSlots

def collectionSlots : TupleDescriptor → List (SlotDescriptor × TupleDescriptor)
  | .mk _ _ collectionSlots => collectionSlots

def hasVarlenSlots (d : TupleDescriptor) : Bool :=
  !d.stringSlots.isEmpty || !d.collectionSlots.isEmpty

end TupleDescriptor

namespace Tuple

def isNull (m : Mem) (t : Nat) (o : NullIndicatorOffset) : Bool :=
  ((m (t + o.byteOffset)).toByte &&& o.bitMask) != 0

def stringSlot (m : Mem) (t : Nat) (s : SlotDescriptor) : SmallableString :=
  (m (t + s.tupleOffset)).stringValue

def collectionSlot (m : Mem) (t : Nat) (s : SlotDescriptor) : CollectionValue :=
  (m (t + s.tupleOffset)).collectionValue

def stringsByteSize (m : Mem) (assumeSmallify : Bool) (t : Nat) : List SlotDescriptor → Nat
  | [] => 0
  | s :: ss =>
    (if isNull m t s.nullIndicatorOffset then 0
      else (stringSlot m t s).externalLen assumeSmallify) +
    stringsByteSize m assumeSmallify t ss

mutual

def varlenByteSize (m : Mem) (assumeSmallify : Bool) : TupleDescriptor → Nat → Nat
  | .mk _ ss cs, t => stringsByteSize m assumeSmallify t ss + collectionsByteSize m assumeSmallify cs t

def collectionsByteSize (m : Mem) (assumeSmallify : Bool) :
    List (SlotDescriptor × TupleDescriptor) → Nat → Nat
  | [], _ => 0
  | (s, item) :: cs, t =>
    (if isNull m t s.nullIndicatorOffset then 0
      else
        let v := collectionSlot m t s
        ((List.range v.numTuples).map fun i =>
          item.byteSize + if item.hasVarlenSlots
            then varlenByteSize m assumeSmallify item (v.ptr + i * item.byteSize) else 0).sum) +
    collectionsByteSize m assumeSmallify cs t

end

def totalByteSize (m : Mem) (assumeSmallify : Bool) (d : TupleDescriptor) (t : Nat) : Nat :=
  d.byteSize + if d.hasVarlenSlots then varlenByteSize m assumeSmallify d t else 0

/-! ### The copy into a buffer

The state is the output buffer and the offset reached in it; `*data` of the source
is `tuple_data + *offset`, with `tuple_data` at address 0 of the buffer. The source
memory `m` is where the pointers of the original tuples lead. -/

/-- The string loop of `DeepCopyVarlenData(desc, data, offset, true)` on the copy at
`dst`: a string that fits is made small, any other is copied to the offset reached
and points to it. -/
def copyStrings (m : Mem) (dst : Nat) : List SlotDescriptor → Mem × Nat → Mem × Nat
  | [], st => st
  | s :: ss, (out, offset) =>
    let st : Mem × Nat :=
      if isNull out dst s.nullIndicatorOffset then (out, offset)
      else
        let v := stringSlot out dst s
        match v.smallify m with
        | (true, v') => (Function.update out (dst + s.tupleOffset) (.str v'), offset)
        | (false, _) =>
          let out := writeList out offset (readList m v.ptr v.len)
          (Function.update out (dst + s.tupleOffset) (.str (v.setPtr offset)), offset + v.len)
    copyStrings m dst ss st

mutual

def deepCopyVarlenData (m : Mem) : TupleDescriptor → Nat → Mem × Nat → Mem × Nat
  | .mk _ ss cs, dst, st => copyCollections m cs dst (copyStrings m dst ss st)

/-- The collection loop of `DeepCopyVarlenData`: the items are copied to the offset
reached, the slot points to them, and each item's own var-len data follows. -/
def copyCollections (m : Mem) :
    List (SlotDescriptor × TupleDescriptor) → Nat → Mem × Nat → Mem × Nat
  | [], _, st => st
  | (s, item) :: cs, dst, (out, offset) =>
    let st : Mem × Nat :=
      if isNull out dst s.nullIndicatorOffset then (out, offset)
      else
        let v := collectionSlot out dst s
        let collByteSize := v.numTuples * item.byteSize
        let out := writeList out offset (readList m v.ptr collByteSize)
        let collData := offset
        let out := Function.update out (dst + s.tupleOffset) (.coll { v with ptr := offset })
        let st := (out, offset + collByteSize)
        if !item.hasVarlenSlots then st
        else (List.range v.numTuples).foldl
          (fun st i => deepCopyVarlenData m item (collData + i * item.byteSize) st) st
    copyCollections m cs dst st

end

def deepCopy (m : Mem) (d : TupleDescriptor) (t : Nat) : Mem × Nat → Mem × Nat
  | (out, offset) =>
    let out := writeList out offset (readList m t d.byteSize)
    if d.hasVarlenSlots then deepCopyVarlenData m d offset (out, offset + d.byteSize)
    else (out, offset + d.byteSize)

/-! ### Back to pointers -/

def convertStrings (tupleData t : Nat) : List SlotDescriptor → Mem → Mem
  | [], r => r
  | s :: ss, r =>
    let r :=
      if isNull r t s.nullIndicatorOffset then r
      else
        let v := stringSlot r t s
        if v.isSmall then r
        else Function.update r (t + s.tupleOffset) (.str (v.setPtr (tupleData + v.ptr)))
    convertStrings tupleData t ss r

mutual

def convertOffsetsToPointers (tupleData : Nat) : TupleDescriptor → Nat → Mem → Mem
  | .mk _ ss cs, t, r => convertCollections tupleData cs t (convertStrings tupleData t ss r)

def convertCollections (tupleData : Nat) :
    List (SlotDescriptor × TupleDescriptor) → Nat → Mem → Mem
  | [], _, r => r
  | (s, item) :: cs, t, r =>
    let r :=
      if isNull r t s.nullIndicatorOffset then r
      else
        let v := collectionSlot r t s
        let collData := tupleData + v.ptr
        let r := Function.update r (t + s.tupleOffset) (.coll { v with ptr := collData })
        (List.range v.numTuples).foldl
          (fun r i => convertOffsetsToPointers tupleData item (collData + i * item.byteSize) r) r
    convertCollections tupleData cs t r

end

end Tuple

end Impala
