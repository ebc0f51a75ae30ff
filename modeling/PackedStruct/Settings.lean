import PackedStruct.ByteOrder
import PackedStruct.Document.Json
import PackedStruct.SortedMap

namespace PackedStruct

structure Settings where
  order : ByteOrder
  constants : SortedMap String UInt64

namespace Settings

def ofOrder (order : ByteOrder) : Settings :=
  ⟨order, .empty⟩

def default : Settings :=
  .ofOrder .default

/-- Adds constants; a later one replaces an earlier one of its name. -/
def define (settings : Settings) (constants : List (String × UInt64)) : Settings :=
  { settings with constants := settings.constants.insertAll constants }

def constantsOfJson? : Json → Option (SortedMap String UInt64)
  | .obj members => do
    let pairs ← members.mapM fun (name, value) => value.toWord?.map (name, ·)
    return .ofList pairs
  | _ => none

/-- The value of a member, or `fallback` where there is none. -/
def memberOr {α : Type} (fallback : α) (name : String) (read : Json → Option α)
    (members : List (String × Json)) : Option α := do
  match ← Json.memberOf? name members with
  | none => some fallback
  | some value => read value

/-- The settings in an object; what is absent takes its default. -/
def ofJson? (json : Json) : Option Settings := do
  let members ← json.members? ["endianness", "constants"]
  let order ← memberOr .default "endianness" ByteOrder.ofJson? members
  let constants ← memberOr .empty "constants" constantsOfJson? members
  return ⟨order, constants⟩

def ofText? (text : String) : Option Settings :=
  (Json.ofText? text).bind ofJson?

def constantsToJson (constants : SortedMap String UInt64) : Json :=
  .obj (constants.entries.map fun (name, value) => (name, .word value))

def toJson (settings : Settings) : Json :=
  .obj [("endianness", .str settings.order.name), ("constants", constantsToJson settings.constants)]

def text (settings : Settings) : String :=
  settings.toJson.compact

end Settings

end PackedStruct
