import PackedStruct.Text.Numeral

namespace PackedStruct.Text

/-- Why a text is not a sequence of byte pairs. -/
inductive HexFault where
  | oddLength
  | badDigit (byte : UInt8) (position : Nat)
  deriving DecidableEq, Repr

/-- The two digits of a byte, high digit first. -/
def hexPair (byte : UInt8) : List Char :=
  [Nat.digitChar (byte.toNat / 16), Nat.digitChar (byte.toNat % 16)]

/-- Two lowercase digits a byte. -/
def hexOfBytes (bytes : List UInt8) : List Char :=
  bytes.flatMap hexPair

def upperHexOfBytes (bytes : List UInt8) : List Char :=
  (hexOfBytes bytes).map Char.toUpper

/-- The value of the digit that stands at `position`. -/
def hexDigitAt (byte : UInt8) (position : Nat) : Except HexFault Nat :=
  match hexDigit? (Char.ofNat byte.toNat) with
  | some value => .ok value
  | none => .error (.badDigit byte position)

/-- The bytes of digit pairs, the first of which stands at `position`. -/
def bytesOfPairs (position : Nat) : List UInt8 → Except HexFault (List UInt8)
  | [] => .ok []
  | [_] => .error .oddLength
  | high :: low :: rest => do
    let high ← hexDigitAt high position
    let low ← hexDigitAt low (position + 1)
    let rest ← bytesOfPairs (position + 2) rest
    return UInt8.ofNat (high * 16 + low) :: rest

/-- The bytes that a text of digits denotes. An odd number of UTF-8 bytes is reported before any
character, and characters are reported by the byte at which they go wrong. -/
def bytesOfHex (text : List Char) : Except HexFault (List UInt8) :=
  let bytes := (String.ofList text).toUTF8.toList
  if bytes.length % 2 = 1 then .error .oddLength else bytesOfPairs 0 bytes

/-- Characters up to U+00FF that have no printed form of their own. -/
def isUnprintable (n : Nat) : Bool :=
  n < 0x20 || (0x7f ≤ n && n ≤ 0xa0) || n == 0xad

/-- A byte shown as a quoted character, with escapes for what cannot be printed. -/
def quotedByte (byte : UInt8) : String :=
  let n := byte.toNat
  let body :=
    if n = 0 then "\\0"
    else if n = 0x9 then "\\t"
    else if n = 0xa then "\\n"
    else if n = 0xd then "\\r"
    else if n = 0x27 then "\\'"
    else if n = 0x5c then "\\\\"
    else if isUnprintable n then "\\u\x7b" ++ String.ofList (Nat.toDigits 16 n) ++ "\x7d"
    else String.singleton (Char.ofNat n)
  "'" ++ body ++ "'"

def HexFault.message : HexFault → String
  | .oddLength => "Odd number of digits"
  | .badDigit byte position =>
    "Invalid character " ++ quotedByte byte ++ " at position " ++ toString position

end PackedStruct.Text
