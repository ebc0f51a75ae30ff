import PackedStruct.Document.Basic
import PackedStruct.Layout.Basic

namespace PackedStruct

mutual

def Layout.document : Layout → Document
  | layout@⟨name, order, fields, bits⟩ =>
    ⟨name, order, bits, layout.byteSize, documentFields fields⟩

def documentFields : List Field → List DocumentField
  | [] => []
  | field :: rest => field.documentField :: documentFields rest

/-- What is written down about a field: width and mask of a bitfield, the size of one element and
the mask of a base type, the document of a nested struct. -/
def Field.documentField : Field → DocumentField
  | field@⟨name, type, length, offset⟩ =>
    let document := type.nestedDocument
    match type, length with
    | .bitfield base width, _ =>
      ⟨name, base.name, offset, some width, some field.range.maskText, none, none, length, document⟩
    | .plain base, none =>
      ⟨name, base.name, offset, none, some field.range.maskText, some base.bits, none, none,
        document⟩
    | .plain base, some _ =>
      ⟨name, base.name, offset, none, some field.range.maskText, none, some base.bits, length,
        document⟩
    | .nested layout, _ =>
      ⟨name, layout.name, offset, none, none, none, none, length, document⟩

def FieldType.nestedDocument : FieldType → Option Document
  | .nested layout => some layout.document
  | _ => none

end

end PackedStruct
