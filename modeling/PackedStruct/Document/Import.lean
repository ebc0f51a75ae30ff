import PackedStruct.Document.Basic
import PackedStruct.Error
import PackedStruct.Layout.Placement

namespace PackedStruct

def DocumentField.baseType (field : DocumentField) (struct : String) :
    Except DefinitionError BaseType :=
  match BaseType.ofName? field.type with
  | some type => .ok type
  | none => .error (.unknownType field.type (struct ++ "." ++ field.name))

/-- Refuses the first recorded size that is not the width of the base type. -/
def DocumentField.checkSizes (field : DocumentField) (struct : String) (type : BaseType) :
    Except DefinitionError Unit :=
  match (field.size.toList ++ field.elementSize.toList).find? (· != type.bits) with
  | some recorded => .error (.badDocument struct (.wrongSize field.name recorded type))
  | none => .ok ()

/-- The type of a field of `struct` that is no nested struct. -/
def DocumentField.simpleType (field : DocumentField) (struct : String) :
    Except DefinitionError FieldType := do
  let type ← field.baseType struct
  match field.bitWidth with
  | some width =>
    if width = 0 ∨ maxBitfieldWidth < width then
      throw (.badDocument struct (.badWidth field.name width))
    else if field.length.isSome then throw (.badDocument struct (.bitfieldArray field.name))
    else return .bitfield type width
  | none =>
    field.checkSizes struct type
    return .plain type

/-- Refuses a recorded offset or mask that is not that of the field. -/
def DocumentField.check (recorded : DocumentField) (struct : String) (field : Field) :
    Except DefinitionError Unit :=
  if recorded.offset ≠ field.offset then
    .error (.badDocument struct (.wrongOffset recorded.name recorded.offset field.offset))
  else
    match recorded.mask with
    | none => .ok ()
    | some mask =>
      if field.range.maskMatches mask then .ok ()
      else .error (.badDocument struct (.wrongMask recorded.name mask field.range.maskText))

def Document.check (document : Document) (layout : Layout) : Except DefinitionError Unit := do
  (document.fields.zip layout.fields).forM fun (recorded, field) =>
    recorded.check document.name field
  if document.bits ≠ layout.bits ∨ document.bytes ≠ layout.byteSize then
    throw (.badDocument document.name
      (.wrongTotals document.bits document.bytes layout.bits layout.byteSize))

mutual

/-- The layout of a document, and the layouts of the structs nested in it. Of two nested structs,
one inside the other, the inner one comes first. -/
def Document.restore : Document → Except DefinitionError (Layout × List Layout)
  | document@⟨name, order, _, _, fields⟩ => do
    let (members, nested) ← restoreFields name [] fields
    let layout ← (Layout.ofMembers name order members).mapError fun cause =>
      .badDocument name (.tooLarge cause)
    document.check layout
    return (layout, nested)

/-- The members of the struct `struct`, and the layouts nested in them. The names in `taken` are no
longer free. -/
def restoreFields (struct : String) (taken : List String) :
    List DocumentField → Except DefinitionError (List Member × List Layout)
  | [] => .ok ([], [])
  | field :: rest => do
    if taken.contains field.name then throw (.badDocument struct (.duplicateField field.name))
    if field.length = some 0 then throw (.badDocument struct (.zeroLength field.name))
    let (type, inner) ← field.restoreType struct
    let (members, others) ← restoreFields struct (field.name :: taken) rest
    return (⟨field.name, type, field.length⟩ :: members, inner ++ others)

/-- The type of a field of the struct `struct`, and the layouts nested in it. -/
def DocumentField.restoreType (struct : String) :
    DocumentField → Except DefinitionError (FieldType × List Layout)
  | ⟨name, type, _, _, _, _, _, _, some document⟩ => do
    if document.name ≠ type then
      throw (.badDocument struct (.wrongNested name type document.name))
    let (layout, inner) ← document.restore
    return (.nested layout, inner ++ [layout])
  | ⟨name, type, offset, bitWidth, mask, size, elementSize, length, none⟩ => do
    let field : DocumentField :=
      ⟨name, type, offset, bitWidth, mask, size, elementSize, length, none⟩
    return (← field.simpleType struct, [])

end

end PackedStruct
