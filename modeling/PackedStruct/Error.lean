import PackedStruct.Definition.Fault
import PackedStruct.Document.Fault
import PackedStruct.Labels
import PackedStruct.Layout.Lookup
import PackedStruct.Packing.Error

namespace PackedStruct

/-- Why no layout comes of a definition or a document. -/
inductive DefinitionError where
  | malformed (cause : Definition.PlacedFault)
  | undefinedConstants (names : List String)
  | unknownType (type field : String)
  | tooLarge (cause : TooLarge)
  | badDocument (struct : String) (fault : DocumentFault)
  | unreadableDocument
  deriving DecidableEq, Repr

def DefinitionError.message : DefinitionError → String
  | .malformed cause => "syntax error at " ++ cause.position.text ++ ": " ++ cause.fault.message
  | .undefinedConstants names => "undefined constant(s): " ++ ", ".intercalate names
  | .unknownType type field => "unknown type '" ++ type ++ "' for field '" ++ field ++ "'"
  | .tooLarge cause => cause.message
  | .badDocument struct fault => "invalid layout document: " ++ struct ++ ": " ++ fault.message
  | .unreadableDocument => "invalid layout document"

inductive LookupError where
  | noStruct (name : String)
  | noField (cause : MissingField)
  | noLabel (cause : MissingLabel)
  deriving DecidableEq, Repr

def LookupError.message : LookupError → String
  | .noStruct name => "struct '" ++ name ++ "' is not registered"
  | .noField cause => "struct '" ++ cause.struct ++ "' has no field '" ++ cause.field ++ "'"
  | .noLabel cause =>
    "no symbol for value " ++ toString cause.value.toNat ++ " of " ++ cause.struct ++ "." ++
      cause.field

inductive Error where
  | definition (cause : DefinitionError)
  | packing (cause : PackingError)
  | lookup (cause : LookupError)
  deriving DecidableEq, Repr

def Error.message : Error → String
  | .definition cause => cause.message
  | .packing cause => cause.message
  | .lookup cause => cause.message

end PackedStruct
