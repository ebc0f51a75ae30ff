namespace PackedStruct.Definition

/-- A place in a text; lines and columns count from one. -/
structure Position where
  line : Nat
  column : Nat
  deriving DecidableEq, Repr

namespace Position

def start : Position := ⟨1, 1⟩

/-- The place after a character. Only a line feed ends a line. -/
def next (position : Position) (c : Char) : Position :=
  if c == '\n' then ⟨position.line + 1, 1⟩ else ⟨position.line, position.column + 1⟩

def after (position : Position) (text : List Char) : Position :=
  text.foldl next position

def text (position : Position) : String :=
  "line " ++ toString position.line ++ ", column " ++ toString position.column

end Position

/-- A name, a number of 64 bits or a mark. -/
inductive Token where
  | ident (name : String)
  | int (value : UInt64)
  | openBrace
  | closeBrace
  | openBracket
  | closeBracket
  | colon
  | semicolon
  deriving DecidableEq, Repr

namespace Token

def ofMark? : Char → Option Token
  | '{' => some .openBrace
  | '}' => some .closeBrace
  | '[' => some .openBracket
  | ']' => some .closeBracket
  | ':' => some .colon
  | ';' => some .semicolon
  | _ => none

def text : Token → String
  | .ident name => "identifier '" ++ name ++ "'"
  | .int value => "integer " ++ toString value.toNat
  | .openBrace => "'\x7b'"
  | .closeBrace => "'\x7d'"
  | .openBracket => "'['"
  | .closeBracket => "']'"
  | .colon => "':'"
  | .semicolon => "';'"

end Token

/-- A token with the place of its first character. -/
structure PlacedToken where
  token : Token
  position : Position
  deriving DecidableEq, Repr

end PackedStruct.Definition
