import PackedStruct.Bits.Range
import PackedStruct.ByteOrder

namespace PackedStruct

/-- The part of a bit range that lies in one byte: `width` bits from bit `shift` of the byte
`byte`, which are the bits from bit `low` of the value in the range. -/
structure Chunk where
  byte : Nat
  shift : Nat
  width : Nat
  low : Nat
  deriving DecidableEq, Repr

namespace BitRange

def chunk (range : BitRange) (byte : Nat) : Chunk :=
  let first := max range.offset (8 * byte)
  let stop := min range.stop (8 * byte + 8)
  ⟨byte, first - 8 * byte, stop - first, first - range.offset⟩

/-- The range cut at the byte boundaries, lowest part first. -/
def chunks (range : BitRange) : List Chunk :=
  if range.width = 0 then []
  else
    let first := range.offset / 8
    (List.range' first ((range.stop + 7) / 8 - first)).map range.chunk

end BitRange

def lowOnes (n : Nat) : UInt64 :=
  if 64 ≤ n then ~~~0 else (1 <<< n.toUInt64) - 1

/-- The bytes of a packed integer. Bit `i` of the integer is bit `i % 8` of byte `i / 8`. -/
structure Image where
  bytes : Array UInt8
  deriving DecidableEq, Repr

namespace Image

def zero (size : Nat) : Image :=
  ⟨Array.replicate size 0⟩

/-- The image that bytes written in some order denote. -/
def ofBytes (order : ByteOrder) (bytes : List UInt8) : Image :=
  ⟨(order.arrange bytes).toArray⟩

def toBytes (image : Image) (order : ByteOrder) : List UInt8 :=
  order.arrange image.bytes.toList

def size (image : Image) : Nat :=
  image.bytes.size

def readChunk (image : Image) (chunk : Chunk) : UInt64 :=
  ((image.bytes.getD chunk.byte 0 >>> chunk.shift.toUInt8).toUInt64 &&& lowOnes chunk.width) <<<
    chunk.low.toUInt64

/-- The value in a range of at most 64 bits. -/
def read (image : Image) (range : BitRange) : UInt64 :=
  range.chunks.foldl (fun value chunk => value ||| image.readChunk chunk) 0

/-- A byte with the bits of a chunk replaced by those of `value`. -/
def replaceBits (chunk : Chunk) (value : UInt64) (byte : UInt8) : UInt8 :=
  let mask := lowOnes chunk.width
  (byte &&& ~~~(mask.toUInt8 <<< chunk.shift.toUInt8)) |||
    (((value >>> chunk.low.toUInt64) &&& mask).toUInt8 <<< chunk.shift.toUInt8)

def writeChunk (value : UInt64) (image : Image) (chunk : Chunk) : Image :=
  ⟨image.bytes.modify chunk.byte (replaceBits chunk value)⟩

/-- Replaces the bits of a range of at most 64 bits by the low bits of `value`. -/
def write (image : Image) (range : BitRange) (value : UInt64) : Image :=
  range.chunks.foldl (writeChunk value) image

@[simp]
theorem size_zero (n : Nat) : (zero n).size = n := by
  simp [zero, size]

@[simp]
theorem size_ofBytes (order : ByteOrder) (bytes : List UInt8) :
    (ofBytes order bytes).size = bytes.length := by
  simp [ofBytes, size]

@[simp]
theorem ofBytes_toBytes (image : Image) (order : ByteOrder) :
    ofBytes order (image.toBytes order) = image := by
  simp [ofBytes, toBytes]

@[simp]
theorem size_writeChunk (value : UInt64) (image : Image) (chunk : Chunk) :
    (writeChunk value image chunk).size = image.size := by
  simp [writeChunk, size]

@[simp]
theorem size_write (image : Image) (range : BitRange) (value : UInt64) :
    (image.write range value).size = image.size := by
  unfold write
  induction range.chunks generalizing image with
  | nil => rfl
  | cons chunk rest ih => simp [ih]

end Image

end PackedStruct
