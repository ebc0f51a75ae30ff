import PackedStruct.Json.Reader
import PackedStruct.Json.Writer
import PackedStruct.Value.Basic

namespace PackedStruct

namespace Value

mutual

/-- The value of an integer, array or object. A negative integer is signed, any other unsigned. -/
def ofJson? : Json → Option Value
  | .int (.ofNat n) => some (.unsigned (UInt64.ofNat n))
  | .int (.negSucc n) => some (.signed (Int64.ofInt (.negSucc n)))
  | .arr items => (ofItems? items).map .array
  | .obj members => (ofMembers? members).map fun pairs => .tree (Entries.ofList pairs)
  | _ => none

def ofItems? : List Json → Option (List Value)
  | [] => some []
  | item :: rest => do
    let value ← ofJson? item
    let values ← ofItems? rest
    return value :: values

def ofMembers? : List (String × Json) → Option (List (String × Value))
  | [] => some []
  | (key, member) :: rest => do
    let value ← ofJson? member
    let values ← ofMembers? rest
    return (key, value) :: values

end

mutual

def toJson : Value → Json
  | .unsigned n => .word n
  | .signed n => .int n.toInt
  | .array items => .arr (itemsToJson items)
  | .tree entries => .obj (entriesToJson entries)

def itemsToJson : List Value → List Json
  | [] => []
  | item :: rest => item.toJson :: itemsToJson rest

def entriesToJson : List (String × Value) → List (String × Json)
  | [] => []
  | (key, value) :: rest => (key, value.toJson) :: entriesToJson rest

end

end Value

namespace Tree

/-- The tree of an object. Of members with one name the last one counts, but all must be values. -/
def ofJson? : Json → Option Tree
  | .obj members => (Value.ofMembers? members).map Entries.ofList
  | _ => none

def ofText? (text : String) : Option Tree := do
  let json ← Json.ofText? text
  if json.depth ≤ Json.depthLimit then ofJson? json else none

def toJson (tree : Tree) : Json :=
  .obj (Value.entriesToJson tree)

def text (tree : Tree) : String :=
  tree.toJson.compact

end Tree

end PackedStruct
