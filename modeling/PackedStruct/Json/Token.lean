import PackedStruct.Json.Basic
import PackedStruct.Text.Numeral

namespace PackedStruct.Json

/-- A token. A string with an unpaired surrogate has no text. -/
inductive Token where
  | openArray
  | closeArray
  | openObject
  | closeObject
  | colon
  | comma
  | str (text : Option String)
  | scalar (value : Json)

/-- What a string is written with: characters, and UTF-16 units given by number. -/
inductive Piece where
  | char (c : Char)
  | unit (value : Nat)

/-- The character that a backslash makes of the one after it. -/
def escaped? : Char → Option Char
  | '"' => some '"'
  | '\\' => some '\\'
  | '/' => some '/'
  | 'b' => some '\x08'
  | 'f' => some '\x0c'
  | 'n' => some '\n'
  | 'r' => some '\r'
  | 't' => some '\t'
  | _ => none

/-- The pieces up to the closing quote, and the text after it. -/
def scanString : List Char → Option (List Piece × List Char)
  | [] => none
  | '"' :: rest => some ([], rest)
  | '\\' :: 'u' :: a :: b :: c :: d :: rest => do
    let value ← Text.numeral? 16 [a, b, c, d]
    let (pieces, rest) ← scanString rest
    return (.unit value :: pieces, rest)
  | '\\' :: c :: rest => do
    let c ← escaped? c
    let (pieces, rest) ← scanString rest
    return (.char c :: pieces, rest)
  | c :: rest =>
    if c.toNat < 0x20 || c == '\\' then none
    else do
      let (pieces, rest) ← scanString rest
      return (.char c :: pieces, rest)

def isHighSurrogate (unit : Nat) : Bool :=
  0xd800 ≤ unit && unit ≤ 0xdbff

def isLowSurrogate (unit : Nat) : Bool :=
  0xdc00 ≤ unit && unit ≤ 0xdfff

/-- The characters of the pieces. A high surrogate and the low one after it make one character; no
other surrogate has a meaning. -/
def joinPieces : List Piece → Option (List Char)
  | [] => some []
  | .char c :: rest => (joinPieces rest).map (c :: ·)
  | .unit high :: .unit low :: rest =>
    if isHighSurrogate high then
      if isLowSurrogate low then
        (joinPieces rest).map (Char.ofNat (0x10000 + (high - 0xd800) * 0x400 + (low - 0xdc00)) :: ·)
      else none
    else if isLowSurrogate high then none
    else (joinPieces (.unit low :: rest)).map (Char.ofNat high :: ·)
  | .unit value :: rest =>
    if isHighSurrogate value || isLowSurrogate value then none
    else (joinPieces rest).map (Char.ofNat value :: ·)

/-- A number with neither fraction nor exponent, if it has 64 bits. A negative zero is no
integer. -/
def integer? (negative : Bool) (digits : List Char) : Option Int := do
  let n ← Text.numeral? 10 digits
  if negative then
    if 0 < n ∧ n ≤ 1 <<< 63 then some (-n) else none
  else if n < 1 <<< 64 then some n else none

def scanDigits (text : List Char) : Option (List Char × List Char) :=
  let digits := text.takeWhile Char.isDigit
  if digits.isEmpty then none else some (digits, text.dropWhile Char.isDigit)

/-- The digits before the point. A leading zero stands alone. -/
def scanWhole (text : List Char) : Option (List Char × List Char) :=
  (scanDigits text).filter fun (digits, _) => digits.head? != some '0' || digits.length == 1

/-- A fraction with its point; empty where there is no point. -/
def scanFraction : List Char → Option (List Char × List Char)
  | '.' :: rest => do
    let (digits, rest) ← scanDigits rest
    return ('.' :: digits, rest)
  | text => some ([], text)

/-- An exponent with its mark and sign; empty where there is no mark. -/
def scanExponent : List Char → Option (List Char × List Char)
  | c :: rest =>
    if c == 'e' || c == 'E' then
      match rest with
      | sign :: more =>
        if sign == '+' || sign == '-' then do
          let (digits, rest) ← scanDigits more
          return (c :: sign :: digits, rest)
        else do
          let (digits, rest) ← scanDigits rest
          return (c :: digits, rest)
      | [] => none
    else some ([], c :: rest)
  | [] => some ([], [])

def scanMagnitude (negative : Bool) (text : List Char) : Option (Json × List Char) := do
  let (whole, rest) ← scanWhole text
  let (fraction, rest) ← scanFraction rest
  let (exponent, rest) ← scanExponent rest
  let spelling := (if negative then ['-'] else []) ++ whole ++ fraction ++ exponent
  let number :=
    match (if fraction.isEmpty ∧ exponent.isEmpty then integer? negative whole else none) with
    | some n => Json.int n
    | none => Json.real (String.ofList spelling)
  return (number, rest)

def scanToken : List Char → Option (Token × List Char)
  | '[' :: rest => some (.openArray, rest)
  | ']' :: rest => some (.closeArray, rest)
  | '{' :: rest => some (.openObject, rest)
  | '}' :: rest => some (.closeObject, rest)
  | ':' :: rest => some (.colon, rest)
  | ',' :: rest => some (.comma, rest)
  | 'n' :: 'u' :: 'l' :: 'l' :: rest => some (.scalar .null, rest)
  | 't' :: 'r' :: 'u' :: 'e' :: rest => some (.scalar (.bool true), rest)
  | 'f' :: 'a' :: 'l' :: 's' :: 'e' :: rest => some (.scalar (.bool false), rest)
  | '"' :: rest => do
    let (pieces, rest) ← scanString rest
    return (.str ((joinPieces pieces).map String.ofList), rest)
  | '-' :: rest => do
    let (number, rest) ← scanMagnitude true rest
    return (.scalar number, rest)
  | text => do
    let (number, rest) ← scanMagnitude false text
    return (.scalar number, rest)

theorem length_of_scanString {text rest : List Char} {pieces : List Piece}
    (h : scanString text = some (pieces, rest)) : rest.length < text.length := by
  fun_induction scanString text generalizing pieces rest with
  | case1 => simp at h
  | case2 => simp_all
  | case3 a b c d rest' ih =>
    simp only [Option.bind_eq_bind, Option.bind_eq_some_iff, Option.pure_def] at h
    grind
  | case4 c rest' _ ih =>
    simp only [Option.bind_eq_bind, Option.bind_eq_some_iff, Option.pure_def] at h
    grind
  | case5 => simp at h
  | case6 c rest' _ _ ih =>
    simp only [Option.bind_eq_bind, Option.bind_eq_some_iff, Option.pure_def] at h
    grind

theorem length_of_scanDigits {text rest digits : List Char}
    (h : scanDigits text = some (digits, rest)) : rest.length < text.length := by
  have split := congrArg List.length
    (List.takeWhile_append_dropWhile (p := Char.isDigit) (l := text))
  grind [scanDigits, List.length_append, List.isEmpty_iff_length_eq_zero]

theorem length_of_scanWhole {text rest digits : List Char}
    (h : scanWhole text = some (digits, rest)) : rest.length < text.length :=
  length_of_scanDigits (Option.filter_eq_some_iff.mp h).1

theorem length_of_scanFraction {text rest fraction : List Char}
    (h : scanFraction text = some (fraction, rest)) : rest.length ≤ text.length := by
  unfold scanFraction at h
  split at h
  · simp only [Option.bind_eq_bind, Option.bind_eq_some_iff, Option.pure_def] at h
    grind [→ length_of_scanDigits]
  · grind

theorem length_of_scanExponent {text rest exponent : List Char}
    (h : scanExponent text = some (exponent, rest)) : rest.length ≤ text.length := by
  unfold scanExponent at h
  simp only [Option.bind_eq_bind, Option.pure_def] at h
  split at h
  · split at h
    · split at h
      · split at h
        all_goals
          simp only [Option.bind_eq_some_iff] at h
          grind [→ length_of_scanDigits]
      · simp at h
    · grind
  · grind

theorem length_of_scanMagnitude {negative : Bool} {text rest : List Char} {number : Json}
    (h : scanMagnitude negative text = some (number, rest)) : rest.length < text.length := by
  unfold scanMagnitude at h
  simp only [Option.bind_eq_bind, Option.bind_eq_some_iff, Option.pure_def] at h
  grind [→ length_of_scanWhole, → length_of_scanFraction, → length_of_scanExponent]

/-- A token takes at least one character. -/
theorem length_of_scanToken {text rest : List Char} {token : Token}
    (h : scanToken text = some (token, rest)) : rest.length < text.length := by
  unfold scanToken at h
  simp only [Option.bind_eq_bind, Option.pure_def] at h
  split at h
  all_goals
    try simp only [Option.bind_eq_some_iff] at h
    grind [→ length_of_scanString, → length_of_scanMagnitude]

def isSpace (c : Char) : Bool :=
  c == ' ' || c == '\n' || c == '\t' || c == '\r'

/-- The tokens of a text, or nothing if some part of it is no token. -/
def tokens (text : List Char) : Option (List Token) :=
  let text' := text.dropWhile isSpace
  if text'.isEmpty then some []
  else
    match _h : scanToken text' with
    | none => none
    | some (token, rest) => (tokens rest).map (token :: ·)
termination_by text.length
decreasing_by
  exact Nat.lt_of_lt_of_le (length_of_scanToken _h) (List.dropWhile_suffix isSpace).length_le

end PackedStruct.Json
