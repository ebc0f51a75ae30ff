import PackedStruct.Json.Basic

namespace PackedStruct.Json

/-- A character inside a string: quotes, backslashes and control characters are escaped. -/
def escapeChar (c : Char) : List Char :=
  if c == '"' then ['\\', '"']
  else if c == '\\' then ['\\', '\\']
  else if c == '\x08' then ['\\', 'b']
  else if c == '\x0c' then ['\\', 'f']
  else if c == '\n' then ['\\', 'n']
  else if c == '\r' then ['\\', 'r']
  else if c == '\t' then ['\\', 't']
  else if c.toNat < 0x20 then
    ['\\', 'u', '0', '0', Nat.digitChar (c.toNat / 16), Nat.digitChar (c.toNat % 16)]
  else [c]

def quote (text : String) : List Char :=
  '"' :: text.toList.flatMap escapeChar ++ ['"']

def scalarText : Json → List Char
  | .bool true => ['t', 'r', 'u', 'e']
  | .bool false => ['f', 'a', 'l', 's', 'e']
  | .int n => (toString n).toList
  | .real spelling => spelling.toList
  | .str text => quote text
  | _ => ['n', 'u', 'l', 'l']

mutual

def compactChars : Json → List Char
  | .arr items => '[' :: compactItems items ++ [']']
  | .obj members => '{' :: compactMembers members ++ ['}']
  | value => scalarText value

def compactItems : List Json → List Char
  | [] => []
  | [item] => compactChars item
  | item :: rest => compactChars item ++ ',' :: compactItems rest

def compactMembers : List (String × Json) → List Char
  | [] => []
  | [(key, value)] => quote key ++ ':' :: compactChars value
  | (key, value) :: rest => quote key ++ ':' :: compactChars value ++ ',' :: compactMembers rest

end

/-- A new line with two spaces for each open container. -/
def newLine (level : Nat) : List Char :=
  '\n' :: List.replicate (2 * level) ' '

/-- The line of a closing bracket; an empty container stays on one line. -/
def closingLine (level : Nat) (empty : Bool) : List Char :=
  if empty then [] else newLine level

mutual

/-- The value with each part of a container on lines of its own, inside `level` open containers. -/
def indentedChars (level : Nat) : Json → List Char
  | .arr items =>
    '[' :: indentedItems (level + 1) items ++ closingLine level items.isEmpty ++ [']']
  | .obj members =>
    '{' :: indentedMembers (level + 1) members ++ closingLine level members.isEmpty ++ ['}']
  | value => scalarText value

/-- The items, each on a new line, with commas after all but the last. -/
def indentedItems (level : Nat) : List Json → List Char
  | [] => []
  | [item] => newLine level ++ indentedChars level item
  | item :: rest => newLine level ++ indentedChars level item ++ ',' :: indentedItems level rest

def indentedMembers (level : Nat) : List (String × Json) → List Char
  | [] => []
  | [(key, value)] => newLine level ++ quote key ++ ':' :: ' ' :: indentedChars level value
  | (key, value) :: rest =>
    newLine level ++ quote key ++ ':' :: ' ' :: indentedChars level value ++
      ',' :: indentedMembers level rest

end

def compact (json : Json) : String :=
  String.ofList (compactChars json)

def indented (json : Json) : String :=
  String.ofList (indentedChars 0 json)

end PackedStruct.Json
