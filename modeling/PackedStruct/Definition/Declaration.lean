import PackedStruct.Definition.Fault
import PackedStruct.Outcome

/-! Declarations: the grammar of struct definitions over tokens.

A definition is `typedef struct [tag] { field* } name ;` and a field is
`[unsigned] [struct] type name [: width] [[ length ]] ;`. -/

namespace PackedStruct.Definition

/-- A field as it is written. Its position is that of the type. -/
structure MemberDeclaration where
  type : String
  name : String
  width : Option Nat
  length : Option Nat
  position : Position
  deriving DecidableEq, Repr

structure Declaration where
  name : String
  members : List MemberDeclaration
  deriving DecidableEq, Repr

/-- The fault that something is missing in front of `tokens`. A text that ends too early is faulted
at `last`, the place of its last token. -/
def missing (last : Position) (expected : Expected) : List PlacedToken → PlacedFault
  | [] => ⟨.missing expected none, last⟩
  | found :: _ => ⟨.missing expected (some found.token), found.position⟩

def take (last : Position) (expected : Expected) (token : Token) (tokens : List PlacedToken) :
    Except PlacedFault (List PlacedToken) :=
  match tokens with
  | [] => .error (missing last expected [])
  | first :: rest =>
    if first.token = token then .ok rest else .error (missing last expected (first :: rest))

def takeName (last : Position) (expected : Expected) :
    List PlacedToken → Except PlacedFault (String × Position × List PlacedToken)
  | ⟨.ident name, position⟩ :: rest => .ok (name, position, rest)
  | tokens => .error (missing last expected tokens)

def takePositive (last : Position) (expected : Expected) :
    List PlacedToken → Except PlacedFault (Nat × List PlacedToken)
  | ⟨.int value, position⟩ :: rest =>
    if value = 0 then .error ⟨.notPositive expected, position⟩ else .ok (value.toNat, rest)
  | tokens => .error (missing last expected tokens)

def skipWord (word : String) : List PlacedToken → List PlacedToken
  | [] => []
  | first :: rest => if first.token = .ident word then rest else first :: rest

def skipName : List PlacedToken → List PlacedToken
  | ⟨.ident _, _⟩ :: rest => rest
  | tokens => tokens

/-- Takes the width of a bitfield if a colon comes next. -/
def takeWidth (last : Position) :
    List PlacedToken → Except PlacedFault (Option Nat × List PlacedToken)
  | ⟨.colon, _⟩ :: rest => do
    let (width, rest) ← takePositive last .width rest
    return (some width, rest)
  | tokens => .ok (none, tokens)

/-- Takes the length of an array if a bracket comes next. A bitfield cannot have one. -/
def takeLength (last : Position) (name : String) (width : Option Nat) :
    List PlacedToken → Except PlacedFault (Option Nat × List PlacedToken)
  | ⟨.openBracket, position⟩ :: rest =>
    if width.isSome then .error ⟨.bitfieldArray name, position⟩
    else do
      let (length, rest) ← takePositive last .length rest
      let rest ← take last .closeBracket .closeBracket rest
      return (some length, rest)
  | tokens => .ok (none, tokens)

def takeMember (last : Position) (tokens : List PlacedToken) :
    Except PlacedFault (MemberDeclaration × List PlacedToken) := do
  let tokens := skipWord "struct" (skipWord "unsigned" tokens)
  let (type, position, tokens) ← takeName last .memberType tokens
  let (name, _, tokens) ← takeName last .memberName tokens
  let (width, tokens) ← takeWidth last tokens
  let (length, tokens) ← takeLength last name width tokens
  let tokens ← take last .semicolon .semicolon tokens
  return (⟨type, name, width, length, position⟩, tokens)

theorem length_of_take {last : Position} {expected : Expected} {token : Token}
    {tokens rest : List PlacedToken} (h : take last expected token tokens = .ok rest) :
    rest.length < tokens.length := by
  unfold take at h
  grind

theorem length_of_takeName {last position : Position} {expected : Expected} {name : String}
    {tokens rest : List PlacedToken}
    (h : takeName last expected tokens = .ok (name, position, rest)) :
    rest.length < tokens.length := by
  unfold takeName at h
  grind

theorem length_of_takePositive {last : Position} {expected : Expected} {n : Nat}
    {tokens rest : List PlacedToken} (h : takePositive last expected tokens = .ok (n, rest)) :
    rest.length < tokens.length := by
  unfold takePositive at h
  grind

theorem length_skipWord (word : String) (tokens : List PlacedToken) :
    (skipWord word tokens).length ≤ tokens.length := by
  unfold skipWord
  grind

theorem length_skipName (tokens : List PlacedToken) :
    (skipName tokens).length ≤ tokens.length := by
  unfold skipName
  grind

theorem length_of_takeWidth {last : Position} {width : Option Nat} {tokens rest : List PlacedToken}
    (h : takeWidth last tokens = .ok (width, rest)) : rest.length ≤ tokens.length := by
  unfold takeWidth at h
  split at h
  · obtain ⟨⟨n, after⟩, taken, same⟩ := bind_eq_ok_iff.mp h
    cases same
    have := length_of_takePositive taken
    simp
    omega
  · cases h
    omega

theorem length_of_takeLength {last : Position} {name : String} {width length : Option Nat}
    {tokens rest : List PlacedToken}
    (h : takeLength last name width tokens = .ok (length, rest)) : rest.length ≤ tokens.length := by
  unfold takeLength at h
  split at h
  · split at h
    · cases h
    · obtain ⟨⟨n, after⟩, taken, h⟩ := bind_eq_ok_iff.mp h
      obtain ⟨closed, bracket, same⟩ := bind_eq_ok_iff.mp h
      cases same
      have := length_of_takePositive taken
      have := length_of_take bracket
      simp
      omega
  · cases h
    omega

/-- A field takes at least one token. -/
theorem length_of_takeMember {last : Position} {member : MemberDeclaration}
    {tokens rest : List PlacedToken} (h : takeMember last tokens = .ok (member, rest)) :
    rest.length < tokens.length := by
  unfold takeMember at h
  obtain ⟨⟨type, position, afterType⟩, takenType, h⟩ := bind_eq_ok_iff.mp h
  obtain ⟨⟨name, _, afterName⟩, takenName, h⟩ := bind_eq_ok_iff.mp h
  obtain ⟨⟨width, afterWidth⟩, takenWidth, h⟩ := bind_eq_ok_iff.mp h
  obtain ⟨⟨length, afterLength⟩, takenLength, h⟩ := bind_eq_ok_iff.mp h
  obtain ⟨afterMark, takenMark, same⟩ := bind_eq_ok_iff.mp h
  cases same
  have := length_skipWord "struct" (skipWord "unsigned" tokens)
  have := length_skipWord "unsigned" tokens
  have := length_of_takeName takenType
  have := length_of_takeName takenName
  have := length_of_takeWidth takenWidth
  have := length_of_takeLength takenLength
  have := length_of_take takenMark
  omega

/-- Takes fields up to the closing brace, which is taken too. The names in `taken` are no longer
free. -/
def takeMembers (last : Position) (taken : List String) (tokens : List PlacedToken) :
    Except PlacedFault (List MemberDeclaration × List PlacedToken) :=
  match tokens with
  | [] => .error (missing last .closeBrace [])
  | first :: rest =>
    if first.token = .closeBrace then .ok ([], rest)
    else
      match _h : takeMember last (first :: rest) with
      | .error fault => .error fault
      | .ok (member, rest) =>
        if taken.contains member.name then .error ⟨.duplicateField member.name, member.position⟩
        else do
          let (members, rest) ← takeMembers last (member.name :: taken) rest
          return (member :: members, rest)
termination_by tokens.length
decreasing_by
  exact length_of_takeMember _h

def takeDeclaration (last : Position) (tokens : List PlacedToken) :
    Except PlacedFault (Declaration × List PlacedToken) := do
  let tokens ← take last .typedefWord (.ident "typedef") tokens
  let tokens ← take last .structWord (.ident "struct") tokens
  let tokens ← take last .openBrace .openBrace (skipName tokens)
  let (members, tokens) ← takeMembers last [] tokens
  let (name, _, tokens) ← takeName last .structName tokens
  let tokens ← take last .semicolon .semicolon tokens
  return (⟨name, members⟩, tokens)

theorem length_of_takeMembers {last : Position} {taken : List String}
    {members : List MemberDeclaration} {tokens rest : List PlacedToken}
    (h : takeMembers last taken tokens = .ok (members, rest)) : rest.length < tokens.length := by
  fun_induction takeMembers last taken tokens generalizing members rest with
  | case1 => cases h
  | case2 => grind
  | case3 => cases h
  | case4 => cases h
  | case5 taken first rest' _ member after found _ ih =>
    obtain ⟨⟨others, final⟩, taken, same⟩ := bind_eq_ok_iff.mp h
    cases same
    have := ih taken
    have := length_of_takeMember found
    omega

/-- A definition takes at least one token. -/
theorem length_of_takeDeclaration {last : Position} {declaration : Declaration}
    {tokens rest : List PlacedToken} (h : takeDeclaration last tokens = .ok (declaration, rest)) :
    rest.length < tokens.length := by
  unfold takeDeclaration at h
  obtain ⟨afterTypedef, takenTypedef, h⟩ := bind_eq_ok_iff.mp h
  obtain ⟨afterStruct, takenStruct, h⟩ := bind_eq_ok_iff.mp h
  obtain ⟨afterOpen, takenOpen, h⟩ := bind_eq_ok_iff.mp h
  obtain ⟨⟨members, afterMembers⟩, takenMembers, h⟩ := bind_eq_ok_iff.mp h
  obtain ⟨⟨name, _, afterName⟩, takenName, h⟩ := bind_eq_ok_iff.mp h
  obtain ⟨afterMark, takenMark, same⟩ := bind_eq_ok_iff.mp h
  cases same
  have := length_of_take takenTypedef
  have := length_of_take takenStruct
  have := length_skipName afterStruct
  have := length_of_take takenOpen
  have := length_of_takeMembers takenMembers
  have := length_of_takeName takenName
  have := length_of_take takenMark
  omega

def takeDeclarations (last : Position) (tokens : List PlacedToken) :
    Except PlacedFault (List Declaration) :=
  match _h : takeDeclaration last tokens with
  | .error fault => .error fault
  | .ok (declaration, rest) =>
    if rest.isEmpty then .ok [declaration]
    else do
      let declarations ← takeDeclarations last rest
      return declaration :: declarations
termination_by tokens.length
decreasing_by
  exact length_of_takeDeclaration _h

/-- The place of the last token, or the start of an empty text. -/
def lastPosition (tokens : List PlacedToken) : Position :=
  (tokens.getLast?.map (·.position)).getD .start

def declarations (tokens : List PlacedToken) : Except PlacedFault (List Declaration) :=
  takeDeclarations (lastPosition tokens) tokens

def declaration (tokens : List PlacedToken) : Except PlacedFault Declaration := do
  let last := lastPosition tokens
  let (declaration, rest) ← takeDeclaration last tokens
  if rest.isEmpty then return declaration
  else throw (missing last .endOfDefinition rest)

end PackedStruct.Definition
