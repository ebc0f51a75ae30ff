import PackedStruct.Labels
import PackedStruct.Layout.Leaves
import PackedStruct.Packing.Unpack

namespace PackedStruct

structure DumpLine where
  label : String
  value : UInt64
  mask : String
  shift : Nat
  symbol : Option String
  deriving DecidableEq, Repr

def padRight (width : Nat) (text : String) : String :=
  text ++ String.ofList (List.replicate (width - text.length) ' ')

def greatest (sizes : List Nat) : Nat :=
  sizes.foldl max 0

/-- The line of a leaf: the value, and the mask and the shift that take it out of the packed
integer. -/
def Leaf.dumpLine (image : Image) (labels : Labels) (leaf : Leaf) : DumpLine :=
  let value := image.read leaf.range
  ⟨leaf.path.text, value, leaf.range.maskText, leaf.range.offset,
    labels.label? leaf.struct leaf.field value⟩

/-- The line in columns: label, hexadecimal value, mask, shift and decimal value. -/
def DumpLine.text (labelWidth maskWidth : Nat) (line : DumpLine) : String :=
  let digits := "0x" ++ String.ofList (Text.upperHex line.value.toNat)
  let row :=
    padRight labelWidth line.label ++ "  " ++ padRight 18 digits ++ "  mask " ++
      padRight maskWidth line.mask ++ "  >> " ++ padRight 4 (toString line.shift) ++ " = " ++
      toString line.value.toNat
  match line.symbol with
  | none => row
  | some symbol => row ++ " (" ++ symbol ++ ")"

def Layout.dumpLines (layout : Layout) (image : Image) (labels : Labels) : List DumpLine :=
  layout.leaves.map (Leaf.dumpLine image labels)

/-- The packed integer, most significant byte first. -/
def Image.packedText (image : Image) : String :=
  "0x" ++ String.ofList (Text.upperHexOfBytes image.bytes.toList.reverse)

/-- The table of an image: the packed integer, then a line for each leaf. The first column is as
wide as the UTF-8 form of the longest label. -/
def Layout.table (layout : Layout) (image : Image) (labels : Labels) : String :=
  let lines := layout.dumpLines image labels
  let labelWidth := max 6 (greatest (lines.map fun line => line.label.utf8ByteSize))
  let maskWidth := greatest (lines.map fun line => line.mask.length)
  let head := padRight labelWidth "packed" ++ "  " ++ image.packedText
  "\n".intercalate (head :: lines.map (DumpLine.text labelWidth maskWidth))

def Layout.dump (layout : Layout) (bytes : List UInt8) (labels : Labels) :
    Except PackingError String := do
  let image ← layout.imageOf bytes
  return layout.table image labels

end PackedStruct
