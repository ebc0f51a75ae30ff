import PackedStruct.SortedMap
import PackedStruct.Text.WordChar

namespace PackedStruct.Definition

abbrev Constants := SortedMap String UInt64

/-- The value of a constant in decimal, in place of a word that is its name. -/
def replaceWord (constants : Constants) (word : List Char) : List Char :=
  if Text.isIdentifier word then
    match constants.get? (String.ofList word) with
    | some value => (toString value.toNat).toList
    | none => word
  else word

/-- The text with its constants replaced by their values. A name is replaced where it is a whole
word. -/
def replaceConstants (constants : Constants) (text : List Char) : List Char :=
  (Text.runs Text.isWordChar text).flatMap (replaceWord constants)

/-- The mark that closes the place where the definition needs a number: brackets around a length,
colon and semicolon around a width. -/
def closingMark? : Char → Option Char
  | '[' => some ']'
  | ':' => some ';'
  | _ => none

/-- The name that alone, but for white space, stands before `close` at the start of a text. -/
def nameBefore? (close : Char) (text : List Char) : Option (List Char) :=
  let text := text.dropWhile Text.isBlank
  let name := text.takeWhile Text.isIdentifierChar
  let rest := (text.dropWhile Text.isIdentifierChar).dropWhile Text.isBlank
  if Text.isIdentifier name ∧ rest.head? = some close then some name else none

/-- The names that stand where a number is needed, in the order of the text. -/
def namesForNumbers : List Char → List String
  | [] => []
  | c :: rest =>
    match (closingMark? c).bind fun close => nameBefore? close rest with
    | some name => String.ofList name :: namesForNumbers rest
    | none => namesForNumbers rest

/-- The names that stand where a number is needed, in order and each one once. -/
def undefinedNames (text : List Char) : List String :=
  (SortedMap.ofList ((namesForNumbers text).map (·, ()))).keys

end PackedStruct.Definition
