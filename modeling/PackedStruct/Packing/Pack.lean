import PackedStruct.Bits.Image
import PackedStruct.Layout.Basic
import PackedStruct.Packing.Error
import PackedStruct.Value.Basic

namespace PackedStruct

/-- An integer bound for a range of bits. -/
structure Write where
  range : BitRange
  raw : UInt64
  deriving DecidableEq, Repr

/-- The items of an array value for `length` elements. Too many items are refused, too few are
not. -/
def Value.itemsFor (value : Value) (length : Nat) (path : Path) :
    Except PackingError (List Value) :=
  match value.items? with
  | none => .error (.misfit path .notArray)
  | some items =>
    if length < items.length then .error (.misfit path (.tooMany items.length length))
    else .ok items

def Value.writeTo (value : Value) (range : BitRange) (path : Path) :
    Except PackingError (List Write) :=
  match value.raw? with
  | none => .error (.misfit path .notInteger)
  | some raw => .ok [⟨range, raw⟩]

mutual

/-- The writes for the fields of a struct at bit `base` that the tree has values for. -/
def Layout.writesAt : Layout → Nat → Path → Tree → Except PackingError (List Write)
  | ⟨_, _, fields, _⟩, base, path, tree => writesOfFields fields base path tree

/-- The writes for the fields that the tree has values for, in the order of the fields. Entries of
the tree that name no field do not matter. -/
def writesOfFields : List Field → Nat → Path → Tree → Except PackingError (List Write)
  | [], _, _, _ => .ok []
  | field :: rest, base, path, tree => do
    let first ←
      match tree.lookup field.name with
      | none => .ok []
      | some value => field.writesAt base path value
    let others ← writesOfFields rest base path tree
    return first ++ others

def Field.writesAt : Field → Nat → Path → Value → Except PackingError (List Write)
  | ⟨name, type, none, offset⟩, base, path, value =>
    type.writesAt (base + offset) (path ++ [.field name]) value
  | ⟨name, type, some length, offset⟩, base, path, value => do
    let items ← value.itemsFor length (path ++ [.field name])
    let writes ← items.zipIdx.mapM fun (item, i) =>
      type.writesAt (base + (offset + i * type.width)) (path ++ [.field name, .index i]) item
    return writes.flatten

def FieldType.writesAt : FieldType → Nat → Path → Value → Except PackingError (List Write)
  | .nested layout, base, path, value =>
    match value.tree? with
    | none => .error (.misfit path .notStruct)
    | some tree => layout.writesAt base path tree
  | .bitfield _ width, base, path, value => value.writeTo ⟨base, width⟩ path
  | .plain type, base, path, value => value.writeTo ⟨base, type.bits⟩ path

end

def Image.writeAll (image : Image) (writes : List Write) : Image :=
  writes.foldl (fun image write => image.write write.range write.raw) image

/-- The bytes of a struct with the values of the tree. What the tree leaves out is zero, and an
integer is cut to the width of its field. -/
def Layout.pack (layout : Layout) (tree : Tree) : Except PackingError (List UInt8) := do
  let writes ← layout.writesAt 0 [] tree
  return ((Image.zero layout.byteSize).writeAll writes).toBytes layout.order

def Layout.packHex (layout : Layout) (tree : Tree) : Except PackingError String := do
  let bytes ← layout.pack tree
  return String.ofList (Text.hexOfBytes bytes)

end PackedStruct
