import PackedStruct.Json.Token

namespace PackedStruct.Json

/-- A container that is still open, the parts read so far last first. In a `member` frame the key
of the next member has been read and its value has not. -/
inductive Frame where
  | array (items : List Json)
  | object (members : List (Option String × Json))
  | member (members : List (Option String × Json)) (key : Option String)

inductive Expecting where
  | value
  | valueOrClose
  | key
  | keyOrClose
  | colon
  | commaOrClose

/-- A reading in progress, or the value of a text that has been read to its end. -/
inductive Reading where
  | open (frames : List Frame) (next : Expecting)
  | done (value : Json)

/-- The object with these members, last first. It is unreadable if one of its keys is. -/
def objectOf (members : List (Option String × Json)) : Json :=
  match members.reverse.mapM fun (key, value) => key.map (·, value) with
  | some members => .obj members
  | none => .unreadable

/-- Puts a value that has been read into the innermost open container. -/
def Reading.place (value : Json) : List Frame → Option Reading
  | [] => some (.done value)
  | .array items :: frames => some (.open (.array (value :: items) :: frames) .commaOrClose)
  | .member members key :: frames =>
    some (.open (.object ((key, value) :: members) :: frames) .commaOrClose)
  | .object _ :: _ => none

/-- Starts a value with one token: a scalar is complete, a bracket opens a container. -/
def Reading.start (frames : List Frame) : Token → Option Reading
  | .openArray => some (.open (.array [] :: frames) .valueOrClose)
  | .openObject => some (.open (.object [] :: frames) .keyOrClose)
  | .scalar value => place value frames
  | .str (some text) => place (.str text) frames
  | .str none => place .unreadable frames
  | _ => none

/-- Closes the innermost container with the bracket that fits it. -/
def Reading.close : List Frame → Token → Option Reading
  | .array items :: frames, .closeArray => place (.arr items.reverse) frames
  | .object members :: frames, .closeObject => place (objectOf members) frames
  | _, _ => none

def Reading.takeKey : List Frame → Token → Option Reading
  | .object members :: frames, .str key => some (.open (.member members key :: frames) .colon)
  | _, _ => none

/-- Goes on to the next part of the innermost container. -/
def Reading.advance : List Frame → Option Reading
  | .array items :: frames => some (.open (.array items :: frames) .value)
  | .object members :: frames => some (.open (.object members :: frames) .key)
  | _ => none

def Reading.step : Reading → Token → Option Reading
  | .done _, _ => none
  | .open frames .value, token => start frames token
  | .open frames .valueOrClose, .closeArray => close frames .closeArray
  | .open frames .valueOrClose, token => start frames token
  | .open frames .key, token => takeKey frames token
  | .open frames .keyOrClose, .closeObject => close frames .closeObject
  | .open frames .keyOrClose, token => takeKey frames token
  | .open frames .colon, .colon => some (.open frames .value)
  | .open _ .colon, _ => none
  | .open frames .commaOrClose, .comma => advance frames
  | .open frames .commaOrClose, token => close frames token

def ofTokens? (tokens : List Token) : Option Json := do
  match ← tokens.foldlM Reading.step (.open [] .value) with
  | .done value => some value
  | .open _ _ => none

/-- The value that a text denotes, with white space around it or not. -/
def ofText? (text : String) : Option Json :=
  (tokens text.toList).bind ofTokens?

end PackedStruct.Json
