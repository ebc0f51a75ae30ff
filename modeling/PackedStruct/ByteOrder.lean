namespace PackedStruct

/-- Whether the least significant byte comes first, as in `little`, or last, as in `big`. -/
inductive ByteOrder where
  | little
  | big
  deriving DecidableEq, Repr

namespace ByteOrder

def default : ByteOrder := .little

def name : ByteOrder → String
  | .little => "little"
  | .big => "big"

def ofName? : String → Option ByteOrder
  | "little" => some .little
  | "big" => some .big
  | _ => none

/-- Turns bytes with the least significant one first into this order, and back. -/
def arrange : ByteOrder → List UInt8 → List UInt8
  | .little, bytes => bytes
  | .big, bytes => bytes.reverse

@[simp]
theorem ofName?_name (order : ByteOrder) : ofName? order.name = some order := by
  cases order <;> rfl

@[simp]
theorem arrange_arrange (order : ByteOrder) (bytes : List UInt8) :
    order.arrange (order.arrange bytes) = bytes := by
  cases order <;> simp [arrange]

@[simp]
theorem length_arrange (order : ByteOrder) (bytes : List UInt8) :
    (order.arrange bytes).length = bytes.length := by
  cases order <;> simp [arrange]

end ByteOrder

end PackedStruct
