import PackedStruct.Dump
import PackedStruct.Packing.Pack
import PackedStruct.Word

/-! Packing, unpacking, dumping and masks on a machine that stops at the first step out of bounds: a
sum or product of more than 64 bits, a shift by the width of the word or more, a range of more than
64 bits read or written at once, a byte behind the end of the image. -/

namespace PackedStruct

/-- Why a guarded computation ends early: a step out of bounds, or values and bytes that are refused
without a guard as well. -/
inductive Halt where
  | overflow
  | shift (count : Nat)
  | width (bits : Nat)
  | index (byte size : Nat)
  | refused (cause : PackingError)
  deriving DecidableEq, Repr

abbrev Guarded := Except Halt

namespace Guarded

def add (a b : Nat) : Guarded Nat :=
  match Word.add? a b with
  | some sum => .ok sum
  | none => .error .overflow

def mul (a b : Nat) : Guarded Nat :=
  match Word.mul? a b with
  | some product => .ok product
  | none => .error .overflow

def shiftLeft (word : UInt64) (count : Nat) : Guarded UInt64 :=
  if count < 64 then .ok (word <<< count.toUInt64) else .error (.shift count)

def shiftRight (word : UInt64) (count : Nat) : Guarded UInt64 :=
  if count < 64 then .ok (word >>> count.toUInt64) else .error (.shift count)

def shiftByteLeft (byte : UInt8) (count : Nat) : Guarded UInt8 :=
  if count < 8 then .ok (byte <<< count.toUInt8) else .error (.shift count)

def shiftByteRight (byte : UInt8) (count : Nat) : Guarded UInt8 :=
  if count < 8 then .ok (byte >>> count.toUInt8) else .error (.shift count)

/-- The word with its `n` lowest bits set: one less than a power of two, where that is a word. -/
def lowOnes (n : Nat) : Guarded UInt64 :=
  if 64 ≤ n then .ok (~~~0)
  else do
    let power ← shiftLeft 1 n
    if power = 0 then .error .overflow else .ok (power - 1)

def byteAt (image : Image) (byte : Nat) : Guarded UInt8 :=
  match image.bytes[byte]? with
  | some found => .ok found
  | none => .error (.index byte image.size)

def setByte (image : Image) (byte : Nat) (value : UInt8) : Guarded Image :=
  if _inside : byte < image.bytes.size then .ok ⟨image.bytes.set byte value⟩
  else .error (.index byte image.size)

/-- Reads the bits of the range from the bit `done` upwards, a byte at a time. -/
def readFrom (image : Image) (range : BitRange) (done : Nat) (value : UInt64) : Guarded UInt64 :=
  if _more : done < range.width then do
    let place ← add range.offset done
    let shift := place % 8
    let taken := min (8 - shift) (range.width - done)
    let byte ← byteAt image (place / 8)
    let lowered ← shiftByteRight byte shift
    let mask ← lowOnes taken
    let part ← shiftLeft (lowered.toUInt64 &&& mask) done
    readFrom image range (done + taken) (value ||| part)
  else .ok value
termination_by range.width - done

/-- Writes the bits of the range from the bit `done` upwards, a byte at a time. -/
def writeFrom (value : UInt64) (range : BitRange) (image : Image) (done : Nat) : Guarded Image :=
  if _more : done < range.width then do
    let place ← add range.offset done
    let shift := place % 8
    let taken := min (8 - shift) (range.width - done)
    let lowered ← shiftRight value done
    let mask ← lowOnes taken
    let hole ← shiftByteLeft mask.toUInt8 shift
    let byte ← byteAt image (place / 8)
    let part ← shiftByteLeft (lowered &&& mask).toUInt8 shift
    let image ← setByte image (place / 8) ((byte &&& ~~~hole) ||| part)
    writeFrom value range image (done + taken)
  else .ok image
termination_by range.width - done

def read (image : Image) (range : BitRange) : Guarded UInt64 :=
  if 64 < range.width then .error (.width range.width) else readFrom image range 0 0

/-- Replaces the bits of a range by those of `value`, which is cut to the width first. -/
def write (image : Image) (range : BitRange) (value : UInt64) : Guarded Image :=
  if 64 < range.width then .error (.width range.width)
  else do
    let mask ← lowOnes range.width
    writeFrom (value &&& mask) range image 0

def shiftWideLeft (word : BitVec 128) (count : Nat) : Guarded (BitVec 128) :=
  if count < 128 then .ok (word <<< count) else .error (.shift count)

def wideOnes (n : Nat) : Guarded (BitVec 128) :=
  if n = 128 then .ok (BitVec.allOnes 128)
  else do
    let power ← shiftWideLeft 1 n
    if power = 0 then .error .overflow else .ok (power - 1)

def elementOffset (offset width index : Nat) : Guarded Nat := do
  let skipped ← mul index width
  add offset skipped

end Guarded

def Field.guardedSpan (field : Field) : Guarded Nat :=
  Guarded.mul field.type.width field.count

def Field.guardedElementOffset (field : Field) (index : Nat) : Guarded Nat :=
  Guarded.elementOffset field.offset field.type.width index

def Field.guardedElementRange (field : Field) (index : Nat) : Guarded BitRange := do
  let offset ← field.guardedElementOffset index
  let _stop ← Guarded.add offset field.type.width
  return ⟨offset, field.type.width⟩

def Field.guardedRange (field : Field) : Guarded BitRange := do
  let span ← field.guardedSpan
  let _stop ← Guarded.add field.offset span
  return ⟨field.offset, span⟩

namespace BitRange

/-- The mask, if it has at most 128 bits. An empty one is not shifted. -/
def guardedMask? (range : BitRange) : Guarded (Option (BitVec 128)) :=
  match Word.add? range.offset range.width with
  | none => .ok none
  | some stop =>
    if 128 < stop then .ok none
    else if range.width = 0 then .ok (some 0)
    else do
      let ones ← Guarded.wideOnes range.width
      let mask ← Guarded.shiftWideLeft ones range.offset
      return some mask

def guardedCovers (range : BitRange) (bit : Nat) : Guarded Bool :=
  if range.offset ≤ bit then do
    let stop ← Guarded.add range.offset range.width
    return bit < stop
  else .ok false

/-- Sets the bit `i` of a nibble as the bit `4 * n + i` of the mask is. -/
def guardedSetBit (range : BitRange) (n nibble i : Nat) : Guarded Nat := do
  let first ← Guarded.mul n 4
  let bit ← Guarded.add first i
  let covered ← range.guardedCovers bit
  return if covered then nibble ||| 1 <<< i else nibble

/-- The bits `4 * n` to `4 * n + 3` of the mask as a number below sixteen, one bit after the
other. -/
def guardedNibble (range : BitRange) (n : Nat) : Guarded Nat :=
  (List.range 4).foldlM (range.guardedSetBit n) 0

def guardedMaskText (range : BitRange) : Guarded String :=
  if range.width = 0 then .ok "0x0"
  else do
    let stop ← Guarded.add range.offset range.width
    let digits ← (List.range ((stop + 3) / 4)).reverse.mapM fun n => do
      let nibble ← range.guardedNibble n
      return Nat.digitChar nibble
    return String.ofList ('0' :: 'x' :: digits)

/-- Whether a hexadecimal text denotes the mask. The text of the mask is only made to be compared
with digits. -/
def guardedMaskMatches (range : BitRange) (text : String) : Guarded Bool :=
  let digits := Text.dropHexMark text.toList
  if digits.isEmpty || !digits.all (fun c => (Text.hexDigit? c).isSome) then .ok false
  else do
    let rendered ← range.guardedMaskText
    return (digits.dropWhile (· == '0')).map Char.toLower ==
      (rendered.toList.drop 2).dropWhile (· == '0')

end BitRange

mutual

def Layout.guardedReadAt : Layout → Image → Nat → Guarded Tree
  | ⟨_, _, fields, _⟩, image, base => do
    let entries ← guardedReadFields fields image base
    return Entries.ofList entries

def guardedReadFields : List Field → Image → Nat → Guarded (List (String × Value))
  | [], _, _ => .ok []
  | field :: rest, image, base => do
    let value ← field.guardedReadAt image base
    let others ← guardedReadFields rest image base
    return (field.name, value) :: others

def Field.guardedReadAt : Field → Image → Nat → Guarded Value
  | ⟨_, type, none, offset⟩, image, base => do
    let place ← Guarded.add base offset
    type.guardedReadAt image place
  | ⟨_, type, some length, offset⟩, image, base => do
    let items ← (List.range length).mapM fun i => do
      let inside ← Guarded.elementOffset offset type.width i
      let place ← Guarded.add base inside
      type.guardedReadAt image place
    return .array items

def FieldType.guardedReadAt : FieldType → Image → Nat → Guarded Value
  | .nested layout, image, base => do
    let tree ← layout.guardedReadAt image base
    return .tree tree
  | .bitfield _ width, image, base => do
    let word ← Guarded.read image ⟨base, width⟩
    return .unsigned word
  | .plain type, image, base => do
    let word ← Guarded.read image ⟨base, type.bits⟩
    return .unsigned word

end

def Layout.guardedUnpack (layout : Layout) (bytes : List UInt8) : Guarded Tree := do
  let image ← (layout.imageOf bytes).mapError .refused
  layout.guardedReadAt image 0

def Value.guardedWriteTo (value : Value) (range : BitRange) (path : Path) (image : Image) :
    Guarded Image :=
  match value.raw? with
  | none => .error (.refused (.misfit path .notInteger))
  | some raw => Guarded.write image range raw

mutual

/-- Writes the values of a struct at bit `base` on the way through the tree. -/
def Layout.guardedWriteAt : Layout → Nat → Path → Tree → Image → Guarded Image
  | ⟨_, _, fields, _⟩, base, path, tree, image => guardedWriteFields fields base path tree image

def guardedWriteFields : List Field → Nat → Path → Tree → Image → Guarded Image
  | [], _, _, _, image => .ok image
  | field :: rest, base, path, tree, image => do
    let image ←
      match tree.lookup field.name with
      | none => .ok image
      | some value => field.guardedWriteAt base path value image
    guardedWriteFields rest base path tree image

def Field.guardedWriteAt : Field → Nat → Path → Value → Image → Guarded Image
  | ⟨name, type, none, offset⟩, base, path, value, image => do
    let place ← Guarded.add base offset
    type.guardedWriteAt place (path ++ [.field name]) value image
  | ⟨name, type, some length, offset⟩, base, path, value, image => do
    let items ← (value.itemsFor length (path ++ [.field name])).mapError .refused
    items.zipIdx.foldlM (fun image (item, i) => do
      let inside ← Guarded.elementOffset offset type.width i
      let place ← Guarded.add base inside
      type.guardedWriteAt place (path ++ [.field name, .index i]) item image) image

def FieldType.guardedWriteAt : FieldType → Nat → Path → Value → Image → Guarded Image
  | .nested layout, base, path, value, image =>
    match value.tree? with
    | none => .error (.refused (.misfit path .notStruct))
    | some tree => layout.guardedWriteAt base path tree image
  | .bitfield _ width, base, path, value, image => value.guardedWriteTo ⟨base, width⟩ path image
  | .plain type, base, path, value, image => value.guardedWriteTo ⟨base, type.bits⟩ path image

end

def Layout.guardedPack (layout : Layout) (tree : Tree) : Guarded (List UInt8) := do
  let image ← layout.guardedWriteAt 0 [] tree (Image.zero layout.byteSize)
  return image.toBytes layout.order

mutual

def Layout.guardedLeavesFrom : Layout → Nat → Path → Guarded (List Leaf)
  | ⟨name, _, fields, _⟩, base, path => guardedLeavesOfFields fields name base path

def guardedLeavesOfFields : List Field → String → Nat → Path → Guarded (List Leaf)
  | [], _, _, _ => .ok []
  | field :: rest, struct, base, path => do
    let first ← field.guardedLeavesFrom struct base path
    let others ← guardedLeavesOfFields rest struct base path
    return first ++ others

/-- A field that is no array counts as its own element with the index zero. -/
def Field.guardedLeavesFrom : Field → String → Nat → Path → Guarded (List Leaf)
  | ⟨name, type, none, offset⟩, struct, base, path => do
    let inside ← Guarded.elementOffset offset type.width 0
    let place ← Guarded.add base inside
    type.guardedLeavesFrom struct name place (path ++ [.field name])
  | ⟨name, type, some length, offset⟩, struct, base, path => do
    let parts ← (List.range length).mapM fun i => do
      let inside ← Guarded.elementOffset offset type.width i
      let place ← Guarded.add base inside
      type.guardedLeavesFrom struct name place (path ++ [.field name, .index i])
    return parts.flatten

def FieldType.guardedLeavesFrom :
    FieldType → String → String → Nat → Path → Guarded (List Leaf)
  | .nested layout, _, _, base, path => layout.guardedLeavesFrom base path
  | .bitfield _ width, struct, field, base, path => .ok [⟨path, struct, field, ⟨base, width⟩⟩]
  | .plain type, struct, field, base, path => .ok [⟨path, struct, field, ⟨base, type.bits⟩⟩]

end

/-- The line of a leaf. The text of its mask goes up to the end of its bits. -/
def Leaf.guardedDumpLine (image : Image) (labels : Labels) (leaf : Leaf) : Guarded DumpLine := do
  let value ← Guarded.read image leaf.range
  let _stop ← Guarded.add leaf.range.offset leaf.range.width
  return ⟨leaf.path.text, value, leaf.range.maskText, leaf.range.offset,
    labels.label? leaf.struct leaf.field value⟩

def Layout.guardedDumpLines (layout : Layout) (bytes : List UInt8) (labels : Labels) :
    Guarded (List DumpLine) := do
  let image ← (layout.imageOf bytes).mapError .refused
  let leaves ← layout.guardedLeavesFrom 0 []
  leaves.mapM (Leaf.guardedDumpLine image labels)

end PackedStruct
