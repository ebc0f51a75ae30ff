import PackedStruct.Document.Basic
import PackedStruct.Json.Reader
import PackedStruct.Json.Writer

namespace PackedStruct

def optionalMember {α : Type} (name : String) (toJson : α → Json) (value : Option α) :
    List (String × Json) :=
  match value with
  | none => []
  | some value => [(name, toJson value)]

mutual

def Document.toJson : Document → Json
  | ⟨name, order, bits, bytes, fields⟩ =>
    .obj [("struct_name", .str name), ("endianness", .str order.name), ("total_bits", .nat bits),
      ("total_bytes", .nat bytes), ("fields", .arr (fieldsToJson fields))]

def fieldsToJson : List DocumentField → List Json
  | [] => []
  | field :: rest => field.toJson :: fieldsToJson rest

/-- The field as an object without the members that it has nothing for. -/
def DocumentField.toJson : DocumentField → Json
  | ⟨name, type, offset, bitWidth, mask, size, elementSize, length, nested⟩ =>
    .obj ([("name", .str name), ("type", .str type), ("bit_offset", .nat offset)] ++
      optionalMember "bit_width" .nat bitWidth ++ optionalMember "mask" .str mask ++
      optionalMember "size" .nat size ++ optionalMember "element_size" .nat elementSize ++
      optionalMember "array_length" .nat length ++ nestedMember nested)

def nestedMember : Option Document → List (String × Json)
  | none => []
  | some document => [("nested", document.toJson)]

end

/-- The members of a document in the order of an array. -/
def Document.memberNames : List String :=
  ["struct_name", "endianness", "total_bits", "total_bytes", "fields"]

def DocumentField.memberNames : List String :=
  ["name", "type", "bit_offset", "bit_width", "mask", "size", "element_size", "array_length",
    "nested"]

def required {α : Type} (name : String) (read : Json → Option α) (members : List (String × Json)) :
    Option α := do
  let value ← Json.memberOf? name members
  value.bind read

/-- The value of a member that may be absent or null. -/
def optional {α : Type} (name : String) (read : Json → Option α) (members : List (String × Json)) :
    Option (Option α) := do
  match ← Json.memberOf? name members with
  | none => some none
  | some .null => some none
  | some value => (read value).map some

/-- A byte order: its name, or an object that has the name as its only key and null as value. -/
def ByteOrder.ofJson? : Json → Option ByteOrder
  | .str name => ofName? name
  | .obj [(name, .null)] => ofName? name
  | _ => none

mutual

/-- Reads a document that nests at most `limit` containers. Members of other names do not
matter. -/
def Document.read (limit : Nat) (json : Json) : Option Document :=
  match limit with
  | 0 => none
  | limit + 1 => do
    let members ← json.members? Document.memberNames
    let name ← required "struct_name" Json.toStr? members
    let order ← required "endianness" ByteOrder.ofJson? members
    let bits ← required "total_bits" Json.toNat? members
    let bytes ← required "total_bytes" Json.toNat? members
    let fields ← required "fields" (readDocumentFields limit) members
    return ⟨name, order, bits, bytes, fields⟩

def readDocumentFields (limit : Nat) (json : Json) : Option (List DocumentField) :=
  match limit, json with
  | limit + 1, .arr items => items.mapM (DocumentField.read limit)
  | _, _ => none

def DocumentField.read (limit : Nat) (json : Json) : Option DocumentField :=
  match limit with
  | 0 => none
  | limit + 1 => do
    let members ← json.members? DocumentField.memberNames
    let name ← required "name" Json.toStr? members
    let type ← required "type" Json.toStr? members
    let offset ← required "bit_offset" Json.toNat? members
    let bitWidth ← optional "bit_width" Json.toNat? members
    let mask ← optional "mask" Json.toStr? members
    let size ← optional "size" Json.toNat? members
    let elementSize ← optional "element_size" Json.toNat? members
    let length ← optional "array_length" Json.toNat? members
    let nested ← optional "nested" (Document.read limit) members
    return ⟨name, type, offset, bitWidth, mask, size, elementSize, length, nested⟩

end

namespace Document

/-- The document that a JSON value is, however deeply it nests. -/
def ofJson? (json : Json) : Option Document :=
  Document.read json.depth json

/-- The document of a JSON text. What belongs to the document must not nest too deeply. -/
def ofText? (text : String) : Option Document :=
  (Json.ofText? text).bind (Document.read Json.depthLimit)

def text (document : Document) : String :=
  document.toJson.indented

end Document

end PackedStruct
