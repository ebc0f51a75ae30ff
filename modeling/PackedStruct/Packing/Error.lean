import PackedStruct.Layout.Path
import PackedStruct.Text.Hex

namespace PackedStruct

inductive Misfit where
  | notInteger
  | notArray
  | notStruct
  | tooMany (count length : Nat)
  deriving DecidableEq, Repr

def Misfit.reason : Misfit → String
  | .notInteger => "expected an integer"
  | .notArray => "expected an array"
  | .notStruct => "expected a struct"
  | .tooMany count length =>
    toString count ++ " elements exceed array length " ++ toString length

inductive PackingError where
  | shortBuffer (expected actual : Nat)
  | misfit (path : Path) (cause : Misfit)
  | badHex (fault : Text.HexFault)
  deriving DecidableEq, Repr

def PackingError.message : PackingError → String
  | .shortBuffer expected actual =>
    "buffer too short: expected " ++ toString expected ++ " bytes, got " ++ toString actual
  | .misfit path cause => "invalid value for field '" ++ path.text ++ "': " ++ cause.reason
  | .badHex fault => "invalid hex input: " ++ fault.message

end PackedStruct
