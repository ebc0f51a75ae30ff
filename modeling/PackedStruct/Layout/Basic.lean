import PackedStruct.Bits.Range
import PackedStruct.ByteOrder

namespace PackedStruct

inductive BaseType where
  | char
  | short
  | int
  | long
  deriving DecidableEq, Repr

namespace BaseType

def name : BaseType → String
  | .char => "char"
  | .short => "short"
  | .int => "int"
  | .long => "long"

def ofName? : String → Option BaseType
  | "char" => some .char
  | "short" => some .short
  | "int" => some .int
  | "long" => some .long
  | _ => none

def bits : BaseType → Nat
  | .char => 8
  | .short => 16
  | .int => 32
  | .long => 64

@[simp]
theorem ofName?_name (type : BaseType) : ofName? type.name = some type := by
  cases type <;> rfl

end BaseType

mutual

/-- What one element of a field is. The type that a bitfield is declared with does not bound its
width. -/
inductive FieldType where
  | bitfield (type : BaseType) (width : Nat)
  | plain (type : BaseType)
  | nested (layout : Layout)

/-- A field with the offset of its first bit. It has a length if it is an array. -/
structure Field where
  name : String
  type : FieldType
  length : Option Nat
  offset : Nat

/-- A struct whose fields have their places. Bit 0 is the least significant bit of the packed
integer. -/
structure Layout where
  name : String
  order : ByteOrder
  fields : List Field
  bits : Nat

end

/-- The widest bitfield whose values fit an integer. -/
def maxBitfieldWidth : Nat := 64

namespace FieldType

/-- The bits that one element takes. -/
def width : FieldType → Nat
  | .bitfield _ width => width
  | .plain type => type.bits
  | .nested layout => layout.bits

/-- The name that the type has in a definition. -/
def name : FieldType → String
  | .bitfield type _ => type.name
  | .plain type => type.name
  | .nested layout => layout.name

end FieldType

namespace Field

def isBitfield (field : Field) : Bool :=
  match field.type with
  | .bitfield .. => true
  | _ => false

def nested? (field : Field) : Option Layout :=
  match field.type with
  | .nested layout => some layout
  | _ => none

def count (field : Field) : Nat :=
  field.length.getD 1

/-- The bits that all elements take together. -/
def span (field : Field) : Nat :=
  field.type.width * field.count

def range (field : Field) : BitRange :=
  ⟨field.offset, field.span⟩

def elementRange (field : Field) (index : Nat) : BitRange :=
  ⟨field.offset + index * field.type.width, field.type.width⟩

end Field

namespace Layout

def byteSize (layout : Layout) : Nat :=
  (layout.bits + 7) / 8

def field? (layout : Layout) (name : String) : Option Field :=
  layout.fields.find? (·.name == name)

end Layout

end PackedStruct
