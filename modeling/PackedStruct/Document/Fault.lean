import PackedStruct.Layout.Placement

namespace PackedStruct

/-- A contradiction inside a document, or between a document and the layout of its fields. -/
inductive DocumentFault where
  | duplicateField (field : String)
  | zeroLength (field : String)
  | wrongNested (field type embedded : String)
  | badWidth (field : String) (width : Nat)
  | bitfieldArray (field : String)
  | wrongSize (field : String) (recorded : Nat) (type : BaseType)
  | tooLarge (cause : TooLarge)
  | wrongOffset (field : String) (recorded actual : Nat)
  | wrongMask (field recorded actual : String)
  | wrongTotals (recordedBits recordedBytes bits bytes : Nat)
  deriving DecidableEq, Repr

def DocumentFault.message : DocumentFault → String
  | .duplicateField field => "duplicate field '" ++ field ++ "'"
  | .zeroLength field => "'" ++ field ++ "' has zero array length"
  | .wrongNested field type embedded =>
    "'" ++ field ++ "' has type '" ++ type ++ "' but embeds '" ++ embedded ++ "'"
  | .badWidth field width => "'" ++ field ++ "' has invalid bit width " ++ toString width
  | .bitfieldArray field => "bitfield '" ++ field ++ "' cannot be an array"
  | .wrongSize field recorded type =>
    "'" ++ field ++ "' records size " ++ toString recorded ++ ", " ++ type.name ++ " is " ++
      toString type.bits ++ " bits"
  | .tooLarge cause => cause.message
  | .wrongOffset field recorded actual =>
    "'" ++ field ++ "' records offset " ++ toString recorded ++ ", layout gives " ++
      toString actual
  | .wrongMask field recorded actual =>
    "'" ++ field ++ "' records mask " ++ recorded ++ ", layout gives " ++ actual
  | .wrongTotals recordedBits recordedBytes bits bytes =>
    "records " ++ toString recordedBits ++ " bits / " ++ toString recordedBytes ++
      " bytes, layout gives " ++ toString bits ++ " / " ++ toString bytes

end PackedStruct
