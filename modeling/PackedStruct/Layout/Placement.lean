import PackedStruct.Layout.Basic
import PackedStruct.Word

namespace PackedStruct

/-- A field that has no place yet. -/
structure Member where
  name : String
  type : FieldType
  length : Option Nat

/-- A struct outgrew `maxLayoutBits` at one of its fields. -/
structure TooLarge where
  struct : String
  field : String
  deriving DecidableEq, Repr

/-- The most bits that a layout may have. -/
def maxLayoutBits : Nat := 1 <<< 30

/-- The least multiple of `alignment` from `cursor` upwards. An alignment of zero asks for
nothing. -/
def nextMultiple? (cursor alignment : Nat) : Option Nat :=
  if alignment = 0 ∨ cursor % alignment = 0 then some cursor
  else Word.add? cursor (alignment - cursor % alignment)

/-- Bitfields follow one another without gaps. Other fields start at a multiple of the width of one
element. -/
def FieldType.alignment : FieldType → Nat
  | .bitfield _ _ => 1
  | type => type.width

/-- The field at its place behind `cursor`, and the first bit above it. -/
def Member.place? (member : Member) (cursor : Nat) : Option (Field × Nat) := do
  let offset ← nextMultiple? cursor member.type.alignment
  let span ← Word.mul? member.type.width (member.length.getD 1)
  let stop ← Word.add? offset span
  if stop ≤ maxLayoutBits then
    some (⟨member.name, member.type, member.length, offset⟩, stop)
  else none

/-- The members at their places behind `cursor`, and the first bit above them. The name of the
first member without a place is the error. -/
def placeAll (cursor : Nat) : List Member → Except String (List Field × Nat)
  | [] => .ok ([], cursor)
  | member :: rest =>
    match member.place? cursor with
    | none => .error member.name
    | some (field, stop) => do
      let (fields, total) ← placeAll stop rest
      return (field :: fields, total)

def Layout.ofMembers (name : String) (order : ByteOrder) (members : List Member) :
    Except TooLarge Layout :=
  match placeAll 0 members with
  | .ok (fields, bits) => .ok ⟨name, order, fields, bits⟩
  | .error field => .error ⟨name, field⟩

def TooLarge.message (fault : TooLarge) : String :=
  "struct '" ++ fault.struct ++ "' is too large at field '" ++ fault.field ++ "'"

end PackedStruct
