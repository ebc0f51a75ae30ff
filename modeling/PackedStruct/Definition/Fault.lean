import PackedStruct.Definition.Token

namespace PackedStruct.Definition

inductive Expected where
  | typedefWord
  | structWord
  | openBrace
  | closeBrace
  | memberType
  | memberName
  | width
  | length
  | closeBracket
  | semicolon
  | structName
  | endOfDefinition
  deriving DecidableEq, Repr

def Expected.text : Expected → String
  | .typedefWord => "'typedef'"
  | .structWord => "'struct'"
  | .openBrace => "'\x7b'"
  | .closeBrace => "'\x7d'"
  | .memberType => "field type"
  | .memberName => "field name"
  | .width => "bit width"
  | .length => "array length"
  | .closeBracket => "']'"
  | .semicolon => "';'"
  | .structName => "struct name"
  | .endOfDefinition => "end of definition"

/-- Why a text is no definition. Where a token is missing, `found` is the one that stands there
instead, if the text goes on. -/
inductive Fault where
  | badCharacter (c : Char)
  | badInteger (literal : String)
  | missing (expected : Expected) (found : Option Token)
  | notPositive (expected : Expected)
  | bitfieldArray (name : String)
  | duplicateField (name : String)
  | tooWide (name : String) (width limit : Nat)
  deriving DecidableEq, Repr

def Fault.message : Fault → String
  | .badCharacter c => "unexpected character '" ++ String.singleton c ++ "'"
  | .badInteger literal => "invalid integer literal '" ++ literal ++ "'"
  | .missing expected none => "expected " ++ expected.text ++ ", found end of input"
  | .missing expected (some token) => "expected " ++ expected.text ++ ", found " ++ token.text
  | .notPositive expected => expected.text ++ " must be positive"
  | .bitfieldArray name => "bitfield '" ++ name ++ "' cannot be an array"
  | .duplicateField name => "duplicate field '" ++ name ++ "'"
  | .tooWide name width limit =>
    "width " ++ toString width ++ " of '" ++ name ++ "' exceeds " ++ toString limit ++ " bits"

structure PlacedFault where
  fault : Fault
  position : Position
  deriving DecidableEq, Repr

end PackedStruct.Definition
