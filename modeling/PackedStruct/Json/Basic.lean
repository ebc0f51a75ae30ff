namespace PackedStruct

/-- A JSON value. A number is `int` when it is written as an integer of 64 bits, signed or unsigned,
and `real` with its spelling otherwise. A string with an unpaired surrogate, and an object with such
a key, has a place in the grammar but no value: it is `unreadable`. -/
inductive Json where
  | null
  | bool (value : Bool)
  | int (value : Int)
  | real (spelling : String)
  | str (text : String)
  | arr (items : List Json)
  | obj (members : List (String × Json))
  | unreadable
  deriving Repr

namespace Json

mutual

/-- How many containers are open at the most deeply nested place of the value. -/
def depth : Json → Nat
  | .arr items => itemsDepth items + 1
  | .obj members => membersDepth members + 1
  | _ => 0

def itemsDepth : List Json → Nat
  | [] => 0
  | item :: rest => max item.depth (itemsDepth rest)

def membersDepth : List (String × Json) → Nat
  | [] => 0
  | (_, value) :: rest => max value.depth (membersDepth rest)

end

/-- The most containers that a text may nest for its value to be used. -/
def depthLimit : Nat := 127

def nat (n : Nat) : Json := .int n

def word (n : UInt64) : Json := .int n.toNat

/-- The value of a nonnegative integer of 64 bits. -/
def toNat? : Json → Option Nat
  | .int (.ofNat n) => if n < UInt64.size then some n else none
  | _ => none

def toWord? (json : Json) : Option UInt64 :=
  json.toNat?.map UInt64.ofNat

def toStr? : Json → Option String
  | .str text => some text
  | _ => none

/-- The members of an object, or the items of an array paired with `names` in order: a record may
be written either way. More items than names are too many. -/
def members? (names : List String) : Json → Option (List (String × Json))
  | .obj members => some members
  | .arr items => if items.length ≤ names.length then some (names.zip items) else none
  | _ => none

/-- The value of the only member called `name`, or nothing if there is none. Two members of one
name are refused. -/
def memberOf? (name : String) (members : List (String × Json)) : Option (Option Json) :=
  match members.filter (·.1 == name) with
  | [] => some none
  | [member] => some (some member.2)
  | _ => none

end Json

end PackedStruct
