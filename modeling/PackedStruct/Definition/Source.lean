import PackedStruct.Definition.Comment
import PackedStruct.Definition.Constant
import PackedStruct.Definition.Declaration
import PackedStruct.Definition.Lexeme
import PackedStruct.Error

namespace PackedStruct.Definition

/-- The text without comments and with constants replaced. Names that are left where a number is
needed are undefined. -/
def prepare (constants : Constants) (text : List Char) : Except DefinitionError (List Char) :=
  let text := replaceConstants constants (withoutComments text)
  match undefinedNames text with
  | [] => .ok text
  | names => .error (.undefinedConstants names)

def tokensOf (constants : Constants) (text : String) :
    Except DefinitionError (List PlacedToken) := do
  let text ← prepare constants text.toList
  (tokens text).mapError .malformed

def declarationsOf (constants : Constants) (text : String) :
    Except DefinitionError (List Declaration) := do
  let tokens ← tokensOf constants text
  (declarations tokens).mapError .malformed

def declarationOf (constants : Constants) (text : String) :
    Except DefinitionError Declaration := do
  let tokens ← tokensOf constants text
  (declaration tokens).mapError .malformed

end PackedStruct.Definition
