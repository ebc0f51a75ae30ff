import PackedStruct.Definition.Fault
import PackedStruct.Text.Numeral
import PackedStruct.Text.WordChar

/-! The tokens of a text: names and numbers are maximal runs of identifier characters, marks stand
alone. -/

namespace PackedStruct.Definition

/-- The number that a literal denotes, in decimal or after `0x` in hexadecimal. -/
def integer? (literal : List Char) : Option UInt64 :=
  let value :=
    match Text.hexMark? literal with
    | some digits => Text.numeral? 16 digits
    | none => Text.numeral? 10 literal
  (value.filter (· < UInt64.size)).map UInt64.ofNat

/-- The token of a run of characters, or nothing for white space. -/
def Token.ofRun? : List Char → Except Fault (Option Token)
  | [] => .ok none
  | c :: rest =>
    if Text.isBlank c then .ok none
    else if c.isDigit then
      match integer? (c :: rest) with
      | some value => .ok (some (.int value))
      | none => .error (.badInteger (String.ofList (c :: rest)))
    else if Text.isIdentifierStart c then .ok (some (.ident (String.ofList (c :: rest))))
    else
      match Token.ofMark? c with
      | some token => .ok (some token)
      | none => .error (.badCharacter c)

/-- The tokens of the runs of a text, the first of which stands at `position`. -/
def tokensFrom (position : Position) : List (List Char) → Except PlacedFault (List PlacedToken)
  | [] => .ok []
  | run :: rest =>
    match Token.ofRun? run with
    | .error fault => .error ⟨fault, position⟩
    | .ok none => tokensFrom (position.after run) rest
    | .ok (some token) => do
      let tokens ← tokensFrom (position.after run) rest
      return ⟨token, position⟩ :: tokens

def tokens (text : List Char) : Except PlacedFault (List PlacedToken) :=
  tokensFrom .start (Text.runs Text.isIdentifierChar text)

end PackedStruct.Definition
