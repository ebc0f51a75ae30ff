import PackedStruct.Bits.Image
import PackedStruct.Layout.Basic
import PackedStruct.Packing.Error
import PackedStruct.Text.Blank
import PackedStruct.Value.Basic

namespace PackedStruct

mutual

/-- The values of a struct at bit `base`. -/
def Layout.readAt : Layout → Image → Nat → Tree
  | ⟨_, _, fields, _⟩, image, base => Entries.ofList (readFields fields image base)

def readFields : List Field → Image → Nat → List (String × Value)
  | [], _, _ => []
  | field :: rest, image, base =>
    (field.name, field.readAt image base) :: readFields rest image base

def Field.readAt : Field → Image → Nat → Value
  | ⟨_, type, none, offset⟩, image, base => type.readAt image (base + offset)
  | ⟨_, type, some length, offset⟩, image, base =>
    .array ((List.range length).map fun i => type.readAt image (base + (offset + i * type.width)))

def FieldType.readAt : FieldType → Image → Nat → Value
  | .nested layout, image, base => .tree (layout.readAt image base)
  | .bitfield _ width, image, base => .unsigned (image.read ⟨base, width⟩)
  | .plain type, image, base => .unsigned (image.read ⟨base, type.bits⟩)

end

/-- The image of the bytes that belong to the struct. More bytes than needed do no harm. -/
def Layout.imageOf (layout : Layout) (bytes : List UInt8) : Except PackingError Image :=
  if bytes.length < layout.byteSize then .error (.shortBuffer layout.byteSize bytes.length)
  else .ok (.ofBytes layout.order (bytes.take layout.byteSize))

def Layout.unpack (layout : Layout) (bytes : List UInt8) : Except PackingError Tree := do
  let image ← layout.imageOf bytes
  return layout.readAt image 0

/-- The values in bytes given as hexadecimal text, with or without the mark `0x` and with white
space around it or not. -/
def Layout.unpackHex (layout : Layout) (text : String) : Except PackingError Tree :=
  match Text.bytesOfHex (Text.dropHexMark (Text.trim text.toList)) with
  | .error fault => .error (.badHex fault)
  | .ok bytes => layout.unpack bytes

end PackedStruct
