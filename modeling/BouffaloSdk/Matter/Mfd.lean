import BouffaloSdk.Kit.Custody
import BouffaloSdk.Kit.LittleEndian
import BouffaloSdk.Kit.Slice
import BouffaloSdk.Lhal.BflbCommon

/-!
# Matter factory data

`mfd_init` of `components/wireless/matter/mfd/bl_mfd.c` and what it calls. The partition holds
an encrypted area and a plain one, each with its length in front and its CRC behind. Elements of
the plain area stay in the flash; those of the other are copied to the heap. An access outside
the partition, the decryption buffer or the items, and a sum that wraps, is no result at all.
-/

namespace BouffaloSdk.Mfd
open Kit

def elementTypeEfuseAesIv : Nat := 1
def elementTypeElementStart : Nat := 2
def elementTypeElementEnd : Nat := 23
def elementTypeNum : Nat := elementTypeElementEnd - elementTypeElementStart
def mfdEfuseAesIvLen : Nat := 16
def blMfdDecryptBufLen : Nat := 512

/-- `offsetof(ElementTlv_t, value)`. -/
def headSize : Nat := 4

/-- An `ElementTlv_t`, and where it lies in its area. -/
structure ElementTlv where
  offset : Nat
  typeId : Nat
  valueLen : Nat
  deriving DecidableEq, Repr

def ElementTlv.ofHead (offset : Nat) (head : List UInt8) : ElementTlv :=
  ⟨offset, ofLE (head.take 2), ofLE (head.drop 2)⟩

/-- `ELEMENT_TYPE_ID_MASK & tlv.type_id`. -/
def ElementTlv.id (t : ElementTlv) : Nat := t.typeId % 2 ^ 15

def ElementTlv.valueAt (t : ElementTlv) : Nat := t.offset + headSize

def ElementTlv.next (t : ElementTlv) : Nat := t.offset + (headSize + t.valueLen)

/-- An initialisation vector that is taken. -/
def ElementTlv.isIv (t : ElementTlv) : Bool :=
  t.id = elementTypeEfuseAesIv ∧ t.typeId / 2 ^ 15 % 2 = 1 ∧ t.valueLen = mfdEfuseAesIvLen

/-- An element that is stored. -/
def ElementTlv.isElement (t : ElementTlv) : Bool :=
  elementTypeElementStart ≤ t.id ∧ t.id ≤ elementTypeElementEnd ∧ t.valueLen ≠ 0

/-- A place in the partition, or the `k`th heap copy. -/
inductive Ptr
  | flash (addr : Nat)
  | heap (k : Nat)
  deriving DecidableEq, Repr

structure FactoryDataElement where
  valuePtr : Option Ptr
  length : Nat
  deriving DecidableEq, Repr

def FactoryDataElement.empty : FactoryDataElement := ⟨none, 0⟩

/-- A heap copy: where in the decryption buffer its bytes were, and the bytes. -/
structure Block where
  source : Nat
  bytes : List UInt8
  deriving DecidableEq, Repr

/-- `g_mfd_var` with the vector that has been found, the heap copies made and freed, and every
pointer and length ever stored. -/
structure MfdVar where
  item : List FactoryDataElement
  iv : List UInt8
  blocks : List Block
  freed : List Nat
  stored : List (Ptr × Nat)
  deriving DecidableEq, Repr

/-- What is to be parsed: the bytes there are from `pData` on, how many of them belong to it,
and where in the partition it lies, if it does. -/
structure Area where
  flashAt : Option Nat
  mem : List UInt8
  size : Nat

/-- A new value for `g_mfd_var.item[index]`. -/
def MfdVar.setItem (s : MfdVar) (index : Nat) (e : FactoryDataElement) : Option MfdVar :=
  if index < s.item.length then some { s with item := s.item.set index e } else none

/-- The branch of `mfd_parsePartitionData` for an element, false where there is no memory. -/
def storeElement (alloc : Nat → Bool) (a : Area) (t : ElementTlv) (s : MfdVar) :
    Option (Bool × MfdVar) :=
  let index := t.id - elementTypeElementStart
  match a.flashAt with
  | some base =>
    let ptr := Ptr.flash (base + t.valueAt)
    (s.setItem index ⟨some ptr, t.valueLen⟩).map fun s =>
      (true, { s with stored := s.stored ++ [(ptr, t.valueLen)] })
  | none =>
    let ptr := Ptr.heap s.blocks.length
    if alloc s.blocks.length then
      (readSlice a.mem t.valueAt t.valueLen).bind fun value =>
        (s.setItem index ⟨some ptr, t.valueLen⟩).map fun s =>
          (true, { s with blocks := s.blocks ++ [⟨t.valueAt, value⟩]
                          stored := s.stored ++ [(ptr, t.valueLen)] })
    else
      (s.setItem index { s.item.getD index .empty with valuePtr := none }).map fun s => (false, s)

/-- The body of the loop of `mfd_parsePartitionData`. -/
def parseTlv (alloc : Nat → Bool) (a : Area) (t : ElementTlv) (s : MfdVar) :
    Option (Bool × MfdVar) :=
  if t.id = elementTypeEfuseAesIv then
    if t.isIv then
      (readSlice a.mem t.valueAt t.valueLen).map fun iv => (true, { s with iv })
    else some (true, s)
  else if t.isElement then storeElement alloc a t s
  else some (true, s)

def mfdParsePartitionData (alloc : Nat → Bool) (a : Area) :
    (fuel offset : Nat) → MfdVar → Option (Bool × MfdVar)
  | 0, _, _ => none
  | fuel + 1, offset, s =>
    if offset + headSize < a.size then
      (readSlice a.mem offset headSize).bind fun head =>
        let t := ElementTlv.ofHead offset head
        (parseTlv alloc a t s).bind fun (ok, s) =>
          if ok then mfdParsePartitionData alloc a fuel t.next s else some (false, s)
    else some (true, s)

/-- What the call finds: whether there is an active partition, whether it lies above the image,
its bytes, what `bl_mfd_decrypt` leaves in its buffer for a cipher and a vector, and which calls
of `malloc` succeed. -/
structure Factory where
  active : Bool
  aboveImage : Bool
  partition : List UInt8
  decrypt : List UInt8 → List UInt8 → Option (List UInt8)
  alloc : Nat → Bool

/-- The 32-bit word at `i`. -/
def Factory.word (f : Factory) (i : Nat) : Nat := ofLE (slice f.partition i 4)

def Factory.readWord (f : Factory) (i : Nat) : Option Nat :=
  (readSlice f.partition i 4).map ofLE

/-- The checks on the cipher data. -/
def Factory.checkCipher (f : Factory) (cipherSize : Nat) : Option Bool :=
  if cipherSize ≠ 0 then
    (readSlice f.partition 4 cipherSize).bind fun cipher =>
      (f.readWord (4 + cipherSize)).map fun crc =>
        bflbSoftCrc32 cipher = crc ∧ cipherSize ≤ blMfdDecryptBufLen
  else some true

/-- The plain area. -/
def Factory.plainArea (f : Factory) (cipherSize plaintextSize : Nat) : Area where
  flashAt := some (4 + cipherSize + 4 + 4)
  mem := f.partition.drop (4 + cipherSize + 4 + 4)
  size := plaintextSize

/-- What the buffer holds of the cipher data. -/
def bufferArea (buf : List UInt8) (cipherSize : Nat) : Area := ⟨none, buf, cipherSize⟩

/-- The end of `mfd_parseData`, with both CRCs right. A parse takes at most a turn for each
byte. -/
def Factory.parseAreas (f : Factory) (cipherSize plaintextSize : Nat) (s : MfdVar) :
    Option (Bool × MfdVar) :=
  (mfdParsePartitionData f.alloc (f.plainArea cipherSize plaintextSize) (plaintextSize + 1) 0
    s).bind fun (ok, s) =>
      if ¬ ok then some (false, s)
      else if cipherSize ≠ 0 then
        (readSlice f.partition 4 cipherSize).bind fun cipher =>
          match f.decrypt cipher s.iv with
          | none => some (false, s)
          | some buf =>
            mfdParsePartitionData f.alloc (bufferArea buf cipherSize) (cipherSize + 1) 0 s
      else some (true, s)

def Factory.mfdParseData (f : Factory) (s : MfdVar) : Option (Bool × MfdVar) :=
  if ¬ f.aboveImage then some (false, s)
  else
    (f.readWord 0).bind fun cipherSize =>
      (f.readWord (4 + cipherSize + 4)).bind fun plaintextSize =>
        if 2 ^ 32 ≤ cipherSize + plaintextSize then none
        else if cipherSize + plaintextSize < 8 ∨ 4096 < cipherSize + plaintextSize then
          some (false, s)
        else
          (f.checkCipher cipherSize).bind fun right =>
            if ¬ right then some (false, s)
            else
              (readSlice f.partition (4 + cipherSize + 4 + 4) plaintextSize).bind fun plain =>
                (f.readWord (4 + cipherSize + 4 + 4 + plaintextSize)).bind fun crc =>
                  if bflbSoftCrc32 plain ≠ crc then some (false, s)
                  else f.parseAreas cipherSize plaintextSize s

/-- `minimalDataSet`. -/
def minimalDataSet : List Nat := [3, 4, 5, 6, 7, 8, 10, 11, 12]

def mfdCheckMinimalSet (s : MfdVar) : Bool :=
  minimalDataSet.all fun id =>
    (s.item.getD (id - elementTypeElementStart) .empty).valuePtr.isSome

/-- The heap copy that an item points to. -/
def FactoryDataElement.heapCopy (e : FactoryDataElement) : Option Nat :=
  match e.valuePtr with
  | some (.heap k) => some k
  | _ => none

def mfdFree (s : MfdVar) : MfdVar :=
  { s with freed := s.freed ++ s.item.filterMap FactoryDataElement.heapCopy
           item := s.item.map fun _ => .empty }

/-- `g_mfd_var` before the call, and `iv` with whatever is on the stack. -/
def initialVar (iv : List UInt8) : MfdVar :=
  ⟨List.replicate elementTypeNum .empty, iv, [], [], []⟩

def Factory.mfdInit (f : Factory) (iv : List UInt8) : Option (Bool × MfdVar) :=
  if ¬ f.active then some (false, initialVar iv)
  else
    (f.mfdParseData (initialVar iv)).map fun (ok, s) =>
      if ok ∧ mfdCheckMinimalSet s then (true, s) else (false, mfdFree s)

end BouffaloSdk.Mfd
