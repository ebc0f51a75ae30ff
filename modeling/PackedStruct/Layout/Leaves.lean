import PackedStruct.Layout.Basic
import PackedStruct.Layout.Path

namespace PackedStruct

/-- An integer in a packed struct: the path to it, the innermost struct and field that it belongs
to, and its bits. -/
structure Leaf where
  path : Path
  struct : String
  field : String
  range : BitRange
  deriving DecidableEq, Repr

mutual

/-- The leaves of a struct that starts at bit `base`, in the order of the fields. -/
def Layout.leavesFrom : Layout → Nat → Path → List Leaf
  | ⟨name, _, fields, _⟩, base, path => leavesOfFields fields name base path

def leavesOfFields : List Field → String → Nat → Path → List Leaf
  | [], _, _, _ => []
  | field :: rest, struct, base, path =>
    field.leavesFrom struct base path ++ leavesOfFields rest struct base path

/-- The leaves of a field of `struct`, in the order of the elements. -/
def Field.leavesFrom : Field → String → Nat → Path → List Leaf
  | ⟨name, type, none, offset⟩, struct, base, path =>
    type.leavesFrom struct name (base + offset) (path ++ [.field name])
  | ⟨name, type, some length, offset⟩, struct, base, path =>
    (List.range length).flatMap fun i =>
      type.leavesFrom struct name (base + (offset + i * type.width))
        (path ++ [.field name, .index i])

def FieldType.leavesFrom : FieldType → String → String → Nat → Path → List Leaf
  | .nested layout, _, _, base, path => layout.leavesFrom base path
  | .bitfield _ width, struct, field, base, path => [⟨path, struct, field, ⟨base, width⟩⟩]
  | .plain type, struct, field, base, path => [⟨path, struct, field, ⟨base, type.bits⟩⟩]

end

/-- All leaves, depth first in the order of fields and elements. -/
def Layout.leaves (layout : Layout) : List Leaf :=
  layout.leavesFrom 0 []

end PackedStruct
