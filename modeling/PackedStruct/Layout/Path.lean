namespace PackedStruct

/-- A step into a field, or into an element of an array. -/
inductive Step where
  | field (name : String)
  | index (i : Nat)
  deriving DecidableEq, Repr

abbrev Path := List Step

/-- The text of a path that goes one step on: names are joined by points, indices stand in
brackets. No point follows an empty text. -/
def Step.extend (text : String) : Step → String
  | .field name => if text.isEmpty then name else text ++ "." ++ name
  | .index i => text ++ "[" ++ toString i ++ "]"

def Path.text (path : Path) : String :=
  path.foldl Step.extend ""

end PackedStruct
